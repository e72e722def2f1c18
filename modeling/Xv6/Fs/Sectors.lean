/-
**How many sectors a `writei` logs.**

They are the data blocks it spans, the bitmap blocks of the blocks it takes, the indirect block if
it gets entries, and the inode's block if the file grows. Each taken block is a data block or the
indirect block, so it does not count again, and the four kinds are in different areas of the disk or
different slots of the inode.
-/

import Mathlib.Order.Interval.Finset.Nat
import Xv6.Fs.Files

namespace Xv6.Fs

open Lib

/-- The data blocks that `n` bytes at `off` span. -/
def spans (off n : Nat) : Finset Nat :=
  if n = 0 then ∅ else Finset.Ico (off / BSIZE) (blocksOf (off + n))

/-- The bitmap blocks of the blocks that the write will take. -/
def bitmapSectors (s : Fs) (ip : Inode) (off n : Nat) : Finset Nat :=
  ((s.view.free.take (growth (blocks ip) (blocksAfter ip off n))).map fun b =>
    BBLOCK b s.readsb.ninodes.toNat).toFinset

/-- The number of sectors that writing `n` bytes at `off` logs, in terms of the state before. -/
def writeCount (s : Fs) (ip : Inode) (off n : Nat) : Nat :=
  (spans off n).card + (s.bitmapSectors ip off n).card +
    (if blocks ip < blocksAfter ip off n ∧ NDIRECT < blocksAfter ip off n then 1 else 0) +
    if ip.din.size.toNat < off + n then 1 else 0

section Written

variable {s s' : Fs} {ip ip' : Inode} {off : Nat} {src : List UInt8} {taken sectors : List Nat}

theorem mem_spans {n k : Nat} :
    k ∈ spans off n ↔ off / BSIZE ≤ k ∧ k < blocksOf (off + n) ∧ n ≠ 0 := by
  unfold spans
  split
  · next none' => simp [none']
  · next some' =>
    rw [Finset.mem_Ico]
    simp [some']

theorem Written.number (written : Written s s' ip ip' off src taken sectors) :
    ip'.inum = ip.inum := by rw [written.inode]

theorem Written.size (locked : Locked s ip) (written : Written s s' ip ip' off src taken sectors) :
    ip'.din.size.toNat = max ip.din.size.toNat (off + src.length) := by
  have size := written.effect.size
  rwa [← written.number, written.locked.synced, written.number, locked.synced] at size

theorem Written.live (written : Written s s' ip ip' off src taken sectors) :
    s'.view.Live ip.inum := by
  unfold View.Live
  rw [← written.number, written.locked.synced]
  exact written.locked.live

theorem Written.blocks_eq (locked : Locked s ip)
    (written : Written s s' ip ip' off src taken sectors) :
    blocks ip' = blocksAfter ip off src.length := by
  unfold blocks blocksAfter
  rw [written.size locked, blocksOf_max]
  rfl

theorem Written.slots (locked : Locked s ip) (written : Written s s' ip ip' off src taken sectors)
    {k : Nat} (inside : k ≤ MAXFILE) : s'.view.slot ip.inum k ≠ 0 ↔
      k < blocksAfter ip off src.length ∨ k = MAXFILE ∧
      NDIRECT < blocksAfter ip off src.length := by
  have shaped := written.locked.wellFormed.shaped _ written.live
  rw [← written.number, written.locked.synced, written.number] at shaped
  have count : blocksOf ip'.din.size.toNat = blocksAfter ip off src.length :=
    written.blocks_eq locked
  rw [← count]
  exact shaped.slots k inside

theorem Written.slot_injOn (written : Written s s' ip ip' off src taken sectors) :
    Set.InjOn (s'.view.slot ip.inum) {k | s'.view.slot ip.inum k ≠ 0} := by
  intro k some' l _ same
  exact (written.locked.wellFormed.owned.slot_inj written.live written.live some' same).2

theorem blocksAfter_le (locked : Locked s ip) (bound : off + src.length ≤ MAXFILE * BSIZE) :
    blocksAfter ip off src.length ≤ MAXFILE :=
  max_le (blocksOf_le.mpr locked.small) (blocksOf_le.mpr bound)

/-- The slots a write fills. -/
def filled (ip : Inode) (off n : Nat) : Finset Nat :=
  Finset.Ico (blocks ip) (blocksAfter ip off n) ∪
    if blocks ip ≤ NDIRECT ∧ NDIRECT < blocksAfter ip off n then {MAXFILE} else ∅

/-- The slots that a write fills are as many as the blocks it takes. -/
theorem card_filled (bound : blocksAfter ip off src.length ≤ MAXFILE) :
    (filled ip off src.length).card = growth (blocks ip) (blocksAfter ip off src.length) := by
  unfold filled growth
  rw [Finset.card_union_of_disjoint, Nat.card_Ico]
  · congr 1
    split <;> rfl
  · rw [Finset.disjoint_left]
    intro k inside other
    rw [Finset.mem_Ico] at inside
    split at other
    · rw [Finset.mem_singleton] at other
      omega
    · exact Finset.notMem_empty _ other

theorem Written.count (locked : Locked s ip) (written : Written s s' ip ip' off src taken sectors) :
    taken.length = growth (blocks ip) (blocksAfter ip off src.length) := by
  have count := written.effect.count
  rw [locked.synced, blocksOf_max] at count
  exact count

/-- The blocks taken are those in the slots that were filled. -/
theorem Written.taken_eq (locked : Locked s ip) (bound : off + src.length ≤ MAXFILE * BSIZE)
    (written : Written s s' ip ip' off src taken sectors) :
    taken.toFinset = (filled ip off src.length).image (s'.view.slot ip.inum) := by
  have top := blocksAfter_le locked bound
  have shaped := locked.holds.shaped
  rw [locked.viewOf_eq] at shaped
  have le : blocks ip ≤ blocksAfter ip off src.length := le_max_left _ _
  have slots : ∀ k ∈ filled ip off src.length,
      s.view.slot ip.inum k = 0 ∧ s'.view.slot ip.inum k ≠ 0 := by
    intro k member
    unfold filled at member
    rw [Finset.mem_union, Finset.mem_Ico] at member
    have inside : k ≤ MAXFILE ∧ ¬ (k < blocks ip ∨ k = MAXFILE ∧ NDIRECT < blocks ip) ∧
        (k < blocksAfter ip off src.length ∨
          k = MAXFILE ∧ NDIRECT < blocksAfter ip off src.length) := by
      rcases member with new | indirect
      · omega
      · split at indirect
        · rw [Finset.mem_singleton] at indirect
          omega
        · exact absurd indirect (Finset.notMem_empty _)
    refine ⟨?_, (written.slots locked inside.1).mpr inside.2.2⟩
    by_contra some'
    exact inside.2.1 ((shaped.slots k inside.1).mp some')
  symm
  apply Finset.eq_of_subset_of_card_le
  · intro b member
    obtain ⟨k, inside, rfl⟩ := Finset.mem_image.mp member
    rw [List.mem_toFinset]
    obtain ⟨none', some'⟩ := slots k inside
    have live : s.view.Live ip.inum := locked.viewOf_eq ▸ locked.holds.live
    rcases written.effect.slots ip.inum k live with same | ⟨_, _, fresh⟩
    · exact absurd (same.trans none') some'
    · exact fresh
  · rw [Finset.card_image_of_injOn (written.slot_injOn.mono fun k inside => (slots k inside).2),
      card_filled top]
    exact (List.toFinset_card_le _).trans_eq (written.count locked)

/-- **The sectors of a write**: bitmap blocks, slots of the inode, and the inode's block. -/
theorem Written.sectors_eq (locked : Locked s ip) (inside : off ≤ ip.din.size.toNat)
    (bound : off + src.length ≤ MAXFILE * BSIZE)
    (written : Written s s' ip ip' off src taken sectors) :
    sectors.toFinset = s.bitmapSectors ip off src.length ∪
      (spans off src.length ∪
        if blocks ip < blocksAfter ip off src.length ∧ NDIRECT < blocksAfter ip off src.length then
          {MAXFILE} else ∅).image (s'.view.slot ip.inum) ∪
      if ip.din.size.toNat < off + src.length then {IBLOCK ip.inum} else ∅ := by
  have taken' : taken = s.view.free.take (growth (blocks ip) (blocksAfter ip off src.length)) := by
    rw [written.effect.free, List.take_left' (written.count locked)]
  have sb : s'.readsb = s.readsb := written.effect.sb
  have blocksOff : off / BSIZE ≤ blocks ip := by
    have := size_le_blocks ip
    rw [BSIZE_eq] at *
    omega
  have filledSpans : ∀ k, blocks ip ≤ k → k < blocksAfter ip off src.length →
      k ∈ spans off src.length := by
    intro k lower upper
    unfold blocksAfter at upper
    rw [mem_spans]
    refine ⟨blocksOff.trans lower, by omega, ?_⟩
    intro none'
    have : blocksOf (off + src.length) ≤ blocks ip := blocksOf_mono (by omega)
    omega
  have mapped : (s'.viewOf ip').slot ip'.inum MAXFILE = s'.view.slot ip.inum MAXFILE := by
    rw [written.locked.viewOf_eq, written.number]
  ext x
  rw [List.mem_toFinset, written.logged]
  unfold GrowthSector
  rw [mapped, sb]
  simp only [Finset.mem_union, Finset.mem_image]
  have bitmap : x ∈ s.bitmapSectors ip off src.length ↔
      ∃ b ∈ taken, x = BBLOCK b s.readsb.ninodes.toNat := by
    unfold bitmapSectors
    rw [← taken', List.mem_toFinset, List.mem_map]
    exact exists_congr fun b => and_congr_right fun _ => eq_comm
  have took : x ∈ taken ↔ ∃ k ∈ filled ip off src.length, s'.view.slot ip.inum k = x := by
    rw [← List.mem_toFinset, written.taken_eq locked bound, Finset.mem_image]
  rw [bitmap]
  constructor
  · rintro ((⟨b, member, rfl | rfl⟩ | ⟨grows, behind, rfl⟩) | ⟨k, lower, upper, some', rfl⟩
      | ⟨longer, rfl⟩)
    · exact .inl (.inl ⟨b, member, rfl⟩)
    · obtain ⟨k, member, held⟩ := took.mp member
      refine .inl (.inr ⟨k, ?_, held⟩)
      unfold filled at member
      rw [Finset.mem_union, Finset.mem_Ico] at member
      rcases member with new | indirect
      · exact .inl (filledSpans k new.1 new.2)
      · right
        split at indirect
        · next reaches => rwa [if_pos ⟨by omega, reaches.2⟩]
        · exact absurd indirect (Finset.notMem_empty _)
    · exact .inl (.inr ⟨MAXFILE, .inr (by rw [if_pos ⟨grows, behind⟩]; simp), rfl⟩)
    · exact .inl (.inr ⟨k, .inl (mem_spans.mpr ⟨lower, upper, by simpa using some'⟩), rfl⟩)
    · exact .inr (by rw [if_pos longer]; simp)
  · rintro ((⟨b, member, rfl⟩ | ⟨k, slot | indirect, rfl⟩) | inode)
    · exact .inl (.inl ⟨b, member, .inl rfl⟩)
    · obtain ⟨lower, upper, some'⟩ := mem_spans.mp slot
      exact .inr (.inl ⟨k, lower, upper, by simpa using some', rfl⟩)
    · split at indirect
      · next reaches =>
        rw [Finset.mem_singleton] at indirect
        subst indirect
        exact .inl (.inr ⟨reaches.1, reaches.2, rfl⟩)
      · exact absurd indirect (Finset.notMem_empty _)
    · split at inode
      · next longer => exact .inr (.inr ⟨longer, Finset.mem_singleton.mp inode⟩)
      · exact absurd inode (Finset.notMem_empty _)

/-- **The number of sectors that a `writei` logs.** -/
theorem Written.card_sectors (locked : Locked s ip) (inside : off ≤ ip.din.size.toNat)
    (bound : off + src.length ≤ MAXFILE * BSIZE)
    (written : Written s s' ip ip' off src taken sectors) :
    sectors.toFinset.card = s.writeCount ip off src.length := by
  have owned := written.locked.wellFormed.owned
  have top := blocksAfter_le locked bound
  have sb : s'.view.sb = s.view.sb := written.effect.sb
  have slots : ∀ k ∈ (spans off src.length ∪
      if blocks ip < blocksAfter ip off src.length ∧ NDIRECT < blocksAfter ip off src.length then
        {MAXFILE} else ∅), s'.view.slot ip.inum k ≠ 0 := by
    intro k member
    rcases Finset.mem_union.mp member with data | indirect
    · obtain ⟨_, upper, _⟩ := mem_spans.mp data
      have : k < blocksAfter ip off src.length := upper.trans_le (le_max_right _ _)
      exact (written.slots locked (by omega)).mpr (.inl this)
    · split at indirect
      · next reaches =>
        rw [Finset.mem_singleton.mp indirect]
        exact (written.slots locked le_rfl).mpr (.inr ⟨rfl, reaches.2⟩)
      · exact absurd indirect (Finset.notMem_empty _)
  have data : ∀ x ∈ (spans off src.length ∪
      if blocks ip < blocksAfter ip off src.length ∧ NDIRECT < blocksAfter ip off src.length then
        {MAXFILE} else ∅).image (s'.view.slot ip.inum), s.view.sb.dataStart ≤ x := by
    intro x member
    obtain ⟨k, at', rfl⟩ := Finset.mem_image.mp member
    rw [← sb]
    exact (owned.slot_range written.live (slots k at')).1
  have maps : ∀ x ∈ s.bitmapSectors ip off src.length,
      IBLOCK ip.inum < x ∧ x < s.view.sb.dataStart := by
    intro x member
    unfold bitmapSectors at member
    obtain ⟨b, taken', rfl⟩ := List.mem_map.mp (List.mem_toFinset.mp member)
    exact ⟨Superblock.IBLOCK_lt_BBLOCK locked.inside b,
      Superblock.BBLOCK_lt_dataStart (View.mem_free.mp (List.mem_of_mem_take taken')).1⟩
  have inode : IBLOCK ip.inum < s.view.sb.dataStart := Superblock.IBLOCK_lt_dataStart locked.inside
  rw [written.sectors_eq locked inside bound, Finset.card_union_of_disjoint,
    Finset.card_union_of_disjoint, Finset.card_image_of_injOn
      (written.slot_injOn.mono fun k at' => slots k at'), Finset.card_union_of_disjoint]
  · have one : ∀ (p : Prop) [Decidable p] (x : Nat),
        (if p then ({x} : Finset Nat) else ∅).card = if p then 1 else 0 := by
      intro p _ x
      split <;> rfl
    unfold writeCount
    rw [one, one]
    omega
  · rw [Finset.disjoint_left]
    intro k inner other
    obtain ⟨_, upper, _⟩ := mem_spans.mp inner
    have : k < blocksAfter ip off src.length := upper.trans_le (le_max_right _ _)
    split at other
    · rw [Finset.mem_singleton] at other
      omega
    · exact Finset.notMem_empty _ other
  · rw [Finset.disjoint_left]
    intro x inner other
    have := (maps x inner).2
    have := data x other
    omega
  · rw [Finset.disjoint_left]
    intro x inner other
    split at other
    · rw [Finset.mem_singleton] at other
      rcases Finset.mem_union.mp inner with bitmap | slot
      · have := (maps x bitmap).1
        omega
      · have := data x slot
        omega
    · exact Finset.notMem_empty _ other

end Written

end Xv6.Fs
