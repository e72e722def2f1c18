/-
**Reading and writing in a well-formed file system.**

`Locked s ip`: the disk is well formed and `ip` is the in-memory copy of one of its allocated
inodes. `Locked.readi_eq` and `Locked.writei_meets` are the specifications of `readi` and `writei`
there; `Written` is what a successful `writei` did, down to the sectors it logged, and
`writeSectors` names these sectors before the call.
-/

import Xv6.Fs.Content

namespace Xv6

open Lib

namespace Fs

/-- `ip` is locked and valid: the copy in memory of an allocated inode of a well-formed disk. -/
structure Locked (s : Fs) (ip : Inode) : Prop where
  inside : ip.inum < s.readsb.ninodes.toNat
  wellFormed : s.view.WellFormed
  synced : s.view.din ip.inum = ip.din
  live : ip.din.type ≠ 0

/-- The number of blocks of a locked inode. -/
def blocks (ip : Inode) : Nat := blocksOf ip.din.size.toNat

section Locked

variable {s : Fs} {ip : Inode}

theorem Locked.viewOf_eq (locked : Locked s ip) : s.viewOf ip = s.view :=
  View.setDin_self locked.synced

theorem Locked.small (locked : Locked s ip) : ip.din.size.toNat ≤ MAXFILE * BSIZE := by
  rw [← locked.synced]
  exact locked.wellFormed.small _ (by unfold View.Live; rw [locked.synced]; exact locked.live)

theorem Locked.holds (locked : Locked s ip) : Holds s ip (blocks ip) where
  inside := locked.inside
  owned := by
    rw [locked.viewOf_eq]
    exact locked.wellFormed.owned
  live := by
    rw [locked.viewOf_eq]
    unfold View.Live
    rw [locked.synced]
    exact locked.live
  shaped := by
    have live : s.view.Live ip.inum := by
      unfold View.Live
      rw [locked.synced]
      exact locked.live
    have shaped := locked.wellFormed.shaped _ live
    rw [locked.synced] at shaped
    rw [locked.viewOf_eq]
    exact shaped

theorem size_le_blocks (ip : Inode) : ip.din.size.toNat ≤ blocks ip * BSIZE := blocksOf_le.mp le_rfl

/-- `readi` copies a slice of the content. -/
theorem Holds.readi_eq {c : Nat} (holds : Holds s ip c) {off n : Nat} (file : ip.din.type ≠ T_DEV)
    (inside : off ≤ ip.din.size.toNat) (word : off + n < 2 ^ 32)
    (covered : off + min n (ip.din.size.toNat - off) ≤ c * BSIZE) :
    s.readi ip off n = .ok ((min n (ip.din.size.toNat - off) : Nat),
      slice ((s.viewOf ip).contents ip.inum) off n, ip, s) := by
  have din : (s.viewOf ip).din ip.inum = ip.din := View.din_setDin_self ..
  have length : ((s.viewOf ip).contents ip.inum).length = ip.din.size.toNat := by
    rw [View.length_contents, din]
  have count : (if (off + n) % 2 ^ 32 > ip.din.size.toNat then ip.din.size.toNat - off else n) =
      min n (ip.din.size.toNat - off) := by
    rw [Nat.mod_eq_of_lt word]
    split <;> omega
  unfold readi
  rw [if_neg file, if_neg (by rw [Nat.mod_eq_of_lt word]; omega)]
  simp only [count]
  rw [holds.readiLoop_eq covered]
  simp only [Lib.ok_bind]
  rw [← View.slice_contents (by rw [din]; omega)]
  have cut : slice ((s.viewOf ip).contents ip.inum) off (min n (ip.din.size.toNat - off)) =
      slice ((s.viewOf ip).contents ip.inum) off n := by
    unfold slice
    rw [← length, ← List.length_drop, List.take_eq_take_iff]
    omega
  rw [cut]
  rfl

theorem Locked.readi_eq (locked : Locked s ip) {off n : Nat} (file : ip.din.type ≠ T_DEV)
    (inside : off ≤ ip.din.size.toNat) (word : off + n < 2 ^ 32) :
    s.readi ip off n = .ok ((min n (ip.din.size.toNat - off) : Nat),
      slice (s.view.contents ip.inum) off n, ip, s) := by
  have fits := size_le_blocks ip
  rw [locked.holds.readi_eq file inside word (by omega), locked.viewOf_eq]

theorem readi_outside {off n : Nat} (file : ip.din.type ≠ T_DEV)
    (outside : ip.din.size.toNat < off ∨ (off + n) % 2 ^ 32 < off) :
    s.readi ip off n = .ok (-1, [], ip, s) := by
  unfold readi
  rw [if_neg file, if_pos outside]

/-- `writei` out of bounds returns -1 and does nothing. -/
theorem writei_outside {off : Nat} {src : List UInt8} (file : ip.din.type ≠ T_DEV)
    (outside : ip.din.size.toNat < off ∨ (off + src.length) % 2 ^ 32 < off ∨
      (off + src.length) % 2 ^ 32 > MAXFILE * BSIZE) :
    s.writei ip src off = .ok (-1, ip, s) := by
  unfold writei
  rw [if_neg file]
  by_cases first : off > ip.din.size.toNat ∨ (off + src.length) % 2 ^ 32 < off
  · rw [if_pos first]
  · rw [if_neg first, if_pos (by tauto)]

theorem writei_device (device : ip.din.type = T_DEV) (src : List UInt8) (off : Nat) :
    ∃ r, s.writei ip src off = .ok (r, ip, s) := by
  unfold writei
  simp only
  rw [if_pos device]
  split
  · exact ⟨_, rfl⟩
  · split
    · exact ⟨_, rfl⟩
    · exact ⟨_, rfl⟩

end Locked

/-! ### `writei` -/

/-- The blocks of the inode after `n` bytes were written at `off`. -/
def blocksAfter (ip : Inode) (off n : Nat) : Nat := max (blocks ip) (blocksOf (off + n))

/-- `writei` does not reject `n` bytes at `off`. -/
def Fits (ip : Inode) (off n : Nat) : Prop :=
  ip.din.type ≠ T_DEV ∧ off ≤ ip.din.size.toNat ∧ off + n ≤ MAXFILE * BSIZE

instance (ip : Inode) (off n : Nat) : Decidable (Fits ip off n) :=
  inferInstanceAs (Decidable (_ ∧ _ ∧ _))

/-- The sectors that writing `n` bytes at `off` logs before its last `log_write`, named in the state
before: the data blocks that are there, the blocks to be taken with their bitmap blocks, and the
indirect block if it gets entries. The last one is the inode's block if the file grows, and the last
data block if not. -/
def writeSectors (s : Fs) (ip : Inode) (off n : Nat) : Finset Nat :=
  let taken := s.view.free.take (growth (blocks ip) (blocksAfter ip off n))
  let last := if ip.din.size.toNat < off + n then blocksOf (off + n) else blocksOf (off + n) - 1
  ((Finset.range (blocks ip)).filter fun k => off / BSIZE ≤ k ∧ k < last).image
      (s.view.slot ip.inum) ∪
    taken.toFinset ∪ (taken.map fun b => BBLOCK b s.readsb.ninodes.toNat).toFinset ∪
    if NDIRECT < blocks ip ∧ blocks ip < blocksAfter ip off n then
      {s.view.slot ip.inum MAXFILE}
    else ∅

/-- **What a `writei` of `src` at `off` did.** -/
structure Written (s s' : Fs) (ip ip' : Inode) (off : Nat) (src : List UInt8)
    (taken sectors : List Nat) : Prop where
  locked : Locked s' ip'
  inode : ip' = { ip with din := ip'.din }
  effect : s.view.Rewritten s'.view ip.inum off src taken
  logs : Logs s s' sectors
  logged : ∀ x, x ∈ sectors ↔
    s'.GrowthSector ip' (blocks ip) (blocksAfter ip off src.length) taken x ∨
    (∃ k, off / BSIZE ≤ k ∧ k < blocksOf (off + src.length) ∧ src ≠ [] ∧
      x = s'.view.slot ip.inum k) ∨
    ip.din.size.toNat < off + src.length ∧ x = IBLOCK ip.inum

section Writei

variable {s m s' : Fs} {ip ip₁ ip' : Inode} {off : Nat} {src : List UInt8}
    {taken sectors : List Nat}

theorem Written.of_wrote (locked : Locked s ip) (inside : off ≤ ip.din.size.toNat)
    (bound : off + src.length ≤ MAXFILE * BSIZE)
    (wrote : Wrote s m ip ip₁ (blocks ip) (blocksAfter ip off src.length) off src taken sectors)
    (view : s'.view = m.view.setDin ip.inum ip'.din)
    (inode : ip' = { ip₁ with din := { ip₁.din with size := ip'.din.size } })
    (size : ip'.din.size.toNat = max ip.din.size.toNat (off + src.length))
    {last : List Nat} (logs : Logs m s' last)
    (lastLogged : ∀ x, x ∈ last ↔ ip.din.size.toNat < off + src.length ∧ x = IBLOCK ip.inum) :
    Written s s' ip ip' off src taken (sectors ++ last) := by
  have number : ip₁.inum = ip.inum := wrote.toGrows.inum
  have number' : ip'.inum = ip.inum := by rw [inode, ← number]
  have before := locked.viewOf_eq
  have live : s.view.Live ip.inum := before ▸ locked.holds.live
  -- The final view is the holder's view with another size in its inode.
  have final : s'.view = (m.viewOf ip₁).setDin ip.inum ip'.din := by
    rw [view]
    unfold viewOf
    rw [number, View.setDin_setDin]
  have middle : (m.viewOf ip₁).din ip.inum = ip₁.din := by
    unfold viewOf
    rw [number, View.din_setDin_self]
  have here : s'.view.din ip.inum = ip'.din := by rw [final, View.din_setDin_self]
  have effect : s.view.Rewritten s'.view ip.inum off src taken := by
    have edits := wrote.edits
    have bytes := wrote.bytes
    rw [before] at edits bytes
    have count : blocks ip = blocksOf (s.view.din ip.inum).size.toNat := by
      rw [locked.synced]
      rfl
    unfold blocksAfter at edits
    rw [count] at edits bytes
    rw [final]
    refine .of_edits locked.wellFormed live ?_ bound edits bytes ?_ ?_
    · rw [locked.synced]
      exact inside
    · rw [middle, inode]
    · rw [locked.synced, size]
  have type : ip'.din.type = ip.din.type := by
    have same := effect.fields
    rw [here, locked.synced] at same
    rw [same]
  refine ⟨⟨?_, effect.wellFormed, ?_, ?_⟩, ?_, effect, wrote.logs.trans logs, ?_⟩
  · have sb : s'.readsb = s.readsb := effect.sb
    rw [number', sb]
    exact locked.inside
  · rw [number', here]
  · rw [type]
    exact locked.live
  · rw [inode, wrote.inode]
  · intro x
    have indirect :
        (s'.viewOf ip').slot ip'.inum MAXFILE = (m.viewOf ip₁).slot ip₁.inum MAXFILE := by
      rw [slot_viewOf_indirect, slot_viewOf_indirect, inode]
      rfl
    have slots : ∀ k, s'.view.slot ip.inum k = (m.viewOf ip₁).slot ip.inum k := by
      intro k
      rw [final, View.slot_setDin (by rw [middle, inode])]
    have sb : s'.readsb = m.readsb := Eq.trans effect.sb wrote.toGrows.readsb.symm
    rw [List.mem_append, wrote.logged, lastLogged]
    unfold GrowthSector
    rw [indirect, sb, or_assoc]
    simp only [slots]

/-- The sectors named before the call cover every block it takes. -/
theorem writeSectors_plans (locked : Locked s ip) (off n : Nat) :
    Plans s ip (blocks ip) (blocksAfter ip off n) (s.writeSectors ip off n) := by
  refine ⟨fun b member => ?_, fun behind larger => ?_⟩
  · have member' : b ∈ s.view.free.take (growth (blocks ip) (blocksAfter ip off n)) := member
    simp only [writeSectors, Finset.mem_union, List.mem_toFinset, List.mem_map]
    exact ⟨.inl (.inr ⟨b, member', rfl⟩), .inl (.inl (.inr member'))⟩
  · rw [locked.viewOf_eq]
    simp [writeSectors, behind, larger]

/-- **`writei`** does what `Written` says, or fails for want of blocks or room. -/
theorem Locked.writei_meets (locked : Locked s ip) (file : ip.din.type ≠ T_DEV)
    (inside : off ≤ ip.din.size.toNat) (bound : off + src.length ≤ MAXFILE * BSIZE) :
    Meets (s.writei ip src off)
      (fun (r, ip', s') => r = src.length ∧
        ∃ taken sectors, Written s s' ip ip' off src taken sectors)
      (s.Stuck ip (blocks ip) (blocksAfter ip off src.length)
        (s.writeSectors ip off src.length)) := by
  have word : off + src.length < 2 ^ 32 := bound.trans_lt (by decide)
  have plans := writeSectors_plans locked off src.length
  have names : NamesData s ip (blocks ip) off (if ip.din.size.toNat < off + src.length then
      blocksOf (off + src.length) else blocksOf (off + src.length) - 1)
      (s.writeSectors ip off src.length) := by
    intro k lower below upper
    rw [locked.viewOf_eq]
    simp only [writeSectors, Finset.mem_union, Finset.mem_image, Finset.mem_filter,
      Finset.mem_range]
    exact .inl (.inl (.inl ⟨k, ⟨below, lower, upper⟩, rfl⟩))
  unfold writei
  rw [if_neg file, if_neg (by rw [Nat.mod_eq_of_lt word]; omega),
    if_neg (by rw [Nat.mod_eq_of_lt word]; omega)]
  refine (locked.holds.writeiLoop_meets (inside.trans (size_le_blocks ip)) bound plans
    fun k lower below upper => names k lower below (by split <;> omega)).bind ?_
  rintro ⟨ip₁, m⟩ ⟨taken, sectors, wrote, named⟩
  have number : ip₁.inum = ip.inum := wrote.toGrows.inum
  have middle : (m.viewOf ip₁).din ip.inum = ip₁.din := by
    unfold viewOf
    rw [number, View.din_setDin_self]
  have fields : ip₁.din = { ip.din with addrs := ip₁.din.addrs } := by
    have same := wrote.edits.inode
    rw [middle, locked.viewOf_eq, locked.synced] at same
    exact same
  have sameSize : ip₁.din.size = ip.din.size := by rw [fields]
  simp only [sameSize]
  by_cases longer : ip.din.size.toNat < off + src.length
  · have some' : src.length > 0 := by omega
    rw [if_pos ⟨some', longer⟩]
    rw [if_pos longer] at names
    have insideDisk : ip₁.inum < m.readsb.ninodes.toNat := by
      rw [number, wrote.toGrows.readsb]
      exact locked.inside
    unfold iupdate putDinode
    refine ((m.logWrite_meets _ _ (s.writeSectors ip off src.length)).mono (fun _ good => good)
      fun _ bad => .inr (wrote.logs.noRoom (named names) bad)).bind ?_
    rintro s' ⟨stored, logs⟩
    have stored' : s'.view = m.view.setDin ip.inum
        { ip₁.din with size := UInt32.ofNat (off + src.length) } := by
      rw [← number]
      exact view_putDinode insideDisk stored
    refine ⟨rfl, taken, _, Written.of_wrote locked inside bound wrote stored' rfl ?_ logs ?_⟩
    · show (UInt32.ofNat (off + src.length)).toNat = _
      rw [UInt32.toNat_ofNat', Nat.mod_eq_of_lt word]
      omega
    · intro x
      rw [List.mem_singleton]
      simp [longer, number]
  · rw [if_neg fun both => longer both.2]
    have same : blocksAfter ip off src.length = blocks ip :=
      max_eq_left (blocksOf_mono (Nat.le_of_not_lt longer))
    have none' : taken = [] := by
      have counted : taken.length = growth (blocks ip) (blocksAfter ip off src.length) :=
        wrote.edits.count
      rw [← List.length_eq_zero_iff, counted, same, growth_self]
    subst none'
    have unchanged : ip₁.din = ip.din := by
      have kept := wrote.edits.din_eq
      rw [middle, locked.viewOf_eq, locked.synced] at kept
      exact kept
    have stored : m.view = m.view.setDin ip.inum ip₁.din := by
      rw [View.setDin_self]
      rw [wrote.disk, locked.synced, unchanged]
    have written := Written.of_wrote locked inside bound wrote stored rfl
      (by rw [sameSize]; omega) (.refl m) (by simp [longer])
    exact ⟨rfl, [], _, written⟩

end Writei

end Fs

end Xv6
