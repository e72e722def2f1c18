/-
**An inode is a byte array.**

The abstract file of inode `i` is the byte list `contents i`. On a well-formed disk `writei` splices
bytes into it, `readi` copies a slice of it, calls out of bounds do nothing, and no other file
changes. What `writei` needs beyond free blocks is room in the log: one call with more sectors than
the log can take panics, and `Logs.card_le` says why.
-/

import Xv6.Fs.Sectors
import Xv6.Mkfs.Boot

namespace Xv6

open Lib

namespace Fs

section Sectors

variable {s s' : Fs} {ip : Inode} {sectors : List Nat}

/-- A call cannot log more distinct sectors than the log holds. -/
theorem Logs.card_le (logs : Logs s s' sectors) {S : Finset Nat} (logged : ∀ x ∈ S, x ∈ sectors)
    (word : ∀ x ∈ S, x < 2 ^ 32) : S.card ≤ s.log.capacity := by
  by_cases none' : sectors = []
  · subst none'
    rw [Finset.eq_empty_of_forall_notMem fun x member => List.not_mem_nil (logged x member)]
    exact Nat.zero_le _
  · have inj : Set.InjOn UInt32.ofNat (S : Set Nat) := by
      intro x inX y inY same
      have := congrArg UInt32.toNat same
      rwa [UInt32.toNat_ofNat', UInt32.toNat_ofNat', Nat.mod_eq_of_lt (word x inX),
        Nat.mod_eq_of_lt (word y inY)] at this
    have inHeader : S.image UInt32.ofNat ⊆ s'.log.lh.sector.toFinset := by
      intro y member
      obtain ⟨x, inside, rfl⟩ := Finset.mem_image.mp member
      rw [List.mem_toFinset, logs.header]
      exact .inr (List.mem_map_of_mem (logged x inside))
    calc S.card = (S.image UInt32.ofNat).card := (Finset.card_image_of_injOn inj).symm
      _ ≤ s'.log.lh.sector.toFinset.card := Finset.card_le_card inHeader
      _ ≤ s'.log.lh.n := List.toFinset_card_le _
      _ ≤ s.log.capacity := logs.within none'

/-- Every data block that a write spans takes a place in the log. -/
theorem Written.card_spans_le {s' : Fs} {ip' : Inode} {off : Nat} {src : List UInt8}
    {taken sectors : List Nat} (locked : Locked s ip) (bound : off + src.length ≤ MAXFILE * BSIZE)
    (written : Written s s' ip ip' off src taken sectors) :
    (spans off src.length).card ≤ s.log.capacity := by
  have top := blocksAfter_le locked bound
  have some' : ∀ k ∈ spans off src.length, s'.view.slot ip.inum k ≠ 0 := by
    intro k member
    have below : k < blocksAfter ip off src.length :=
      (mem_spans.mp member).2.1.trans_le (le_max_right _ _)
    exact (written.slots locked (below.le.trans top)).mpr (.inl below)
  have distinct := Finset.card_image_of_injOn
    (written.slot_injOn.mono fun k member => some' k (Finset.mem_coe.mp member))
  rw [← distinct]
  apply written.logs.card_le
  · intro x member
    obtain ⟨k, inside, rfl⟩ := Finset.mem_image.mp member
    obtain ⟨lower, upper, long⟩ := mem_spans.mp inside
    exact (written.logged _).mpr (.inr (.inl ⟨k, lower, upper, by simpa using long, rfl⟩))
  · intro x member
    obtain ⟨k, inside, rfl⟩ := Finset.mem_image.mp member
    exact (written.locked.wellFormed.owned.slot_range written.live (some' k inside)).2.trans
      (UInt32.toNat_lt _)

/-- A `writei` logs the data blocks that are there, those it takes, bitmap blocks, and one more. -/
theorem card_writeSectors (s : Fs) (ip : Inode) (off n : Nat) {d m : Nat}
    (data : ∀ last ≤ blocksOf (off + n),
      (((Finset.range (blocks ip)).filter fun k => off / BSIZE ≤ k ∧ k < last).image
        (s.view.slot ip.inum)).card ≤ d)
    (maps : ((s.view.free.take (growth (blocks ip) (blocksAfter ip off n))).map fun b =>
      BBLOCK b s.readsb.ninodes.toNat).toFinset.card ≤ m) :
    (s.writeSectors ip off n).card ≤ d + growth (blocks ip) (blocksAfter ip off n) + m + 1 := by
  have taken := List.length_take_le (growth (blocks ip) (blocksAfter ip off n)) s.view.free
  unfold writeSectors
  refine (Finset.card_union_le _ _).trans (Nat.add_le_add ((Finset.card_union_le _ _).trans
    (Nat.add_le_add ((Finset.card_union_le _ _).trans (Nat.add_le_add (data _ ?_)
      ((List.toFinset_card_le _).trans taken))) maps)) ?_)
  · split <;> omega
  · split <;> simp

theorem card_writeSectors_le (s : Fs) (ip : Inode) (off n : Nat) :
    (s.writeSectors ip off n).card ≤
      blocks ip + 2 * growth (blocks ip) (blocksAfter ip off n) + 1 := by
  have bound := s.card_writeSectors ip off n (d := blocks ip)
    (m := growth (blocks ip) (blocksAfter ip off n))
    (fun _ _ => (Finset.card_image_le.trans (Finset.card_filter_le _ _)).trans_eq
      (Finset.card_range _))
    ((List.toFinset_card_le _).trans (by rw [List.length_map]; exact List.length_take_le _ _))
  omega

/-- **`readi` and `writei` act on the content of an inode as on a byte array**, in a transaction
with room in the log: the sectors that the call logs before its last `log_write` leave a slot
free. -/
theorem inode_byte_array (locked : Locked s ip) (file : ip.din.type ≠ T_DEV) :
    (∀ off (src : List UInt8), off ≤ ip.din.size.toNat → off + src.length ≤ MAXFILE * BSIZE →
      growth (blocks ip) (blocksAfter ip off src.length) ≤ s.view.free.length →
      s.Room (s.writeSectors ip off src.length) →
      ∃ ip' s', s.writei ip src off = .ok (src.length, ip', s') ∧ Locked s' ip' ∧
        ip'.inum = ip.inum ∧ ip'.din.size.toNat = max ip.din.size.toNat (off + src.length) ∧
        s'.view.contents ip.inum = splice (s.view.contents ip.inum) off src ∧
        ∀ j, j ≠ ip.inum → s.view.Live j → s'.view.contents j = s.view.contents j) ∧
    (∀ off (src : List UInt8), off < 2 ^ 32 → src.length < 2 ^ 32 →
      ip.din.size.toNat < off ∨ MAXFILE * BSIZE < off + src.length →
      s.writei ip src off = .ok (-1, ip, s)) ∧
    (∀ off n, off ≤ ip.din.size.toNat → off + n < 2 ^ 32 →
      s.readi ip off n = .ok ((min n (ip.din.size.toNat - off) : Nat),
        slice (s.view.contents ip.inum) off n, ip, s)) ∧
    ∀ off n, off < 2 ^ 32 → n < 2 ^ 32 → ip.din.size.toNat < off ∨ 2 ^ 32 ≤ off + n →
      s.readi ip off n = .ok (-1, [], ip, s) := by
  refine ⟨?_, ?_, ?_, ?_⟩
  · intro off src inside bound enough room
    have free : (s.viewOf ip).free.length = s.view.free.length := rfl
    obtain ⟨⟨r, ip', s'⟩, result, rfl, taken, sectors, written⟩ :=
      ((locked.writei_meets file inside bound).mono (fun _ good => good) (by
        rintro panic (⟨_, few⟩ | full)
        · omega
        · exact full.2 room)).exists_ok
    have number : ip'.inum = ip.inum := by rw [written.inode]
    refine ⟨ip', s', result, written.locked, number, ?_, written.effect.contents,
      written.effect.otherContents⟩
    have size := written.effect.size
    rwa [← number, written.locked.synced, number, locked.synced] at size
  · intro off src short short' outside
    apply writei_outside file
    rw [MAXFILE_eq, BSIZE_eq] at *
    omega
  · intro off n inside word
    exact locked.readi_eq file inside word
  · intro off n short short' outside
    apply readi_outside file
    omega

end Sectors

end Fs

namespace Fs

open Mkfs

/-- Three bytes written to the empty file of an image of `mkfs` are its content. -/
theorem inode_byte_array_three : ∃ img ip s, mkfs (List.replicate 1 emptyFile) = .ok img ∧
    img.boot.begun.writei (onlyFile img) [1, 2, 3] 0 = .ok (3, ip, s) ∧
    s.view.contents 2 = [1, 2, 3] := by
  obtain ⟨img, made, built, holds, finished⟩ := mkfs_empty (n := 1) (by decide)
  obtain ⟨type, size, empty⟩ := onlyFile_din holds finished
  have blocks' := blocks_onlyFile holds finished
  have growth' : growth (blocks (onlyFile img)) (blocksAfter (onlyFile img) 0 3) = 1 := by
    unfold blocksAfter
    rw [blocks']
    decide
  have enough : 1 ≤ img.boot.begun.view.free.length := by
    rw [show img.boot.begun.view.free = _ from free_one holds finished]
    decide +kernel
  have room : img.boot.begun.Room (img.boot.begun.writeSectors (onlyFile img) 0 3) := by
    refine (quiet_boot img).room ((card_writeSectors_le _ _ _ _).trans_lt ?_)
    rw [growth', blocks', capacity_boot]
    decide
  obtain ⟨write, _⟩ := inode_byte_array (locked_onlyFile holds finished)
    (show (img.boot.view.din 2).type ≠ T_DEV by rw [type]; decide)
  obtain ⟨ip, s, result, _, _, _, contents, _⟩ := write 0 [1, 2, 3] (Nat.zero_le _) (by decide)
    (by rw [show ([1, 2, 3] : List UInt8).length = 3 from rfl, growth']; exact enough) room
  refine ⟨img, ip, s, made, result, ?_⟩
  rw [show s.view.contents 2 = _ from contents]
  show splice (img.boot.view.contents 2) 0 [1, 2, 3] = [1, 2, 3]
  rw [empty]
  rfl

/-- Thirty blocks written to the empty file in one call: the blocks are there, the log is too
small. -/
theorem big_write_panics : ∃ img, mkfs (List.replicate 1 emptyFile) = .ok img ∧
    img.boot.begun.Locked (onlyFile img) ∧ (onlyFile img).din.type = T_FILE ∧
    growth (blocks (onlyFile img)) (blocksAfter (onlyFile img) 0 (30 * BSIZE)) ≤
      img.boot.begun.view.free.length ∧ 30 ≤ MAXFILE ∧
    img.boot.begun.writei (onlyFile img) (List.replicate (30 * BSIZE) 0) 0 =
      .error .tooBigATransaction := by
  obtain ⟨img, made, built, holds, finished⟩ := mkfs_empty (n := 1) (by decide)
  have type : (onlyFile img).din.type = T_FILE := (onlyFile_din holds finished).1
  have locked := locked_onlyFile holds finished
  have length : (List.replicate (30 * BSIZE) (0 : UInt8)).length = 30 * BSIZE :=
    List.length_replicate
  have enough : growth (blocks (onlyFile img)) (blocksAfter (onlyFile img) 0 (30 * BSIZE)) ≤
      img.boot.begun.view.free.length := by
    unfold blocksAfter
    rw [blocks_onlyFile holds finished, show img.boot.begun.view.free =
      _ from free_one holds finished]
    decide +kernel
  have bound : 0 + (List.replicate (30 * BSIZE) (0 : UInt8)).length ≤ MAXFILE * BSIZE := by
    rw [length]
    decide
  refine ⟨img, made, locked, type, enough, by decide, ?_⟩
  have spec := locked.writei_meets (by rw [type]; decide) (Nat.zero_le _) bound
  cases result : img.boot.begun.writei (onlyFile img) (List.replicate (30 * BSIZE) 0) 0 with
  | error panic =>
    rcases spec.of_error result with ⟨_, few⟩ | ⟨big | ⟨_, outside⟩, _⟩
    · rw [length] at few
      exact absurd enough (Nat.not_le.mpr few)
    · rw [big]
    · exact absurd outside (show ¬ (1 : Int) < 1 by decide)
  | ok r =>
    obtain ⟨_, taken, sectors, written⟩ := spec.of_ok result
    have fits := written.card_spans_le locked bound
    rw [length] at fits
    exact absurd (fits.trans_eq (capacity_boot img)) (by decide)

end Fs

end Xv6
