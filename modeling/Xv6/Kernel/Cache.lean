/-
**The inode cache agrees with the disk.**

`Coherent k`: the disk is well formed, a cached inode in use is the only copy of its number, and a
valid copy is the allocated inode of the disk. Each function of the cache keeps this, whatever the
caller does with it, and none of them ever frees a free block (`Safe`). What a function does beyond
that is said slot by slot: `Steady k k'` when no slot in use changed its number or lost its copy.
-/

import Xv6.Fs.Apart
import Xv6.Kernel.Basic

namespace Xv6

open Lib Function

theorem Halt.lift_meets {α : Type} {x : Except Panic α} {good : α → Prop} {bad : Halt → Prop}
    (meets : Meets x good fun why => bad (.panic why)) : Meets (Halt.lift x) good bad := by
  cases x with
  | ok a => exact meets
  | error why => exact meets

namespace Fs

theorem Locked.congr {s : Fs} {ip ip' : Inode} (locked : Locked s ip) (inum : ip'.inum = ip.inum)
    (din : ip'.din = ip.din) : Locked s ip' :=
  ⟨inum ▸ locked.inside, locked.wellFormed, by rw [inum, din, locked.synced], din ▸ locked.live⟩

theorem Locked.carry {s s' : Fs} {ip : Inode} (locked : Locked s ip) (sb : s'.readsb = s.readsb)
    (wellFormed : s'.view.WellFormed) (din : s'.view.din ip.inum = s.view.din ip.inum) :
    Locked s' ip :=
  ⟨by rw [sb]; exact locked.inside, wellFormed, din.trans locked.synced, locked.live⟩

end Fs

/-- Any panic but that of `bfree`. -/
def Safe : Halt → Prop
  | .panic why => why ≠ .freeingFreeBlock
  | .sleep => False

theorem Fs.LogPanic.safe {why : Panic} (log : Fs.LogPanic why) : Safe (.panic why) := by
  rintro ⟨⟩
  rcases log with absurdity | absurdity <;> cases absurdity

theorem Fs.Stuck.safe {s : Fs} {ip : Inode} {c c' : Nat} {more : Finset Nat} {why : Panic}
    (stuck : s.Stuck ip c c' more why) : Safe (.panic why) := by
  rcases stuck with ⟨rfl, _⟩ | none'
  · intro absurdity
    cases absurdity
  · exact none'.logPanic.safe

namespace Kernel

/-- **The cache agrees with the disk.** -/
structure Coherent (k : Kernel) : Prop where
  wellFormed : k.fs.view.WellFormed
  nonneg : ∀ ip, 0 ≤ (k.icache ip).ref
  dev : ∀ ip, 0 < (k.icache ip).ref → (k.icache ip).dev = ROOTDEV
  unique : ∀ ip jp, 0 < (k.icache ip).ref → 0 < (k.icache jp).ref →
    (k.icache ip).inum = (k.icache jp).inum → ip = jp
  synced : ∀ ip, 0 < (k.icache ip).ref → (k.icache ip).valid = true → k.fs.Locked (k.icache ip)
  locked : ∀ ip, 0 < (k.icache ip).ref → (k.icache ip).busy = true → (k.icache ip).valid = true

theorem Coherent.of_empty {k : Kernel} (wellFormed : k.fs.view.WellFormed)
    (empty : ∀ ip, (k.icache ip).ref = 0) : k.Coherent where
  wellFormed := wellFormed
  nonneg ip := (empty ip).ge
  dev ip used := absurd (empty ip) used.ne'
  unique ip _ used := absurd (empty ip) used.ne'
  synced ip used := absurd (empty ip) used.ne'
  locked ip used := absurd (empty ip) used.ne'

/-- No slot in use changed its number or lost its copy. -/
def Steady (k k' : Kernel) : Prop :=
  ∀ ip, 0 < (k.icache ip).ref → (k'.icache ip).inum = (k.icache ip).inum ∧
    ((k.icache ip).valid = true → (k'.icache ip).valid = true)

section Slots

variable {k : Kernel} {ip jp : Slot} {node : Inode}

@[simp] theorem icache_setInode_self (k : Kernel) (ip : Slot) (node : Inode) :
    (k.setInode ip node).icache ip = node := update_self ..

theorem icache_setInode_of_ne (other : jp ≠ ip) (k : Kernel) (node : Inode) :
    (k.setInode ip node).icache jp = k.icache jp := update_of_ne other ..

@[simp] theorem fs_setInode (k : Kernel) (ip : Slot) (node : Inode) :
    (k.setInode ip node).fs = k.fs := rfl

theorem Steady.refl (k : Kernel) : k.Steady k := fun _ _ => ⟨rfl, id⟩

theorem Steady.setInode (inum : node.inum = (k.icache ip).inum)
    (valid : (k.icache ip).valid = true → node.valid = true) : k.Steady (k.setInode ip node) := by
  intro jp _
  by_cases same : jp = ip
  · subst same
    rw [icache_setInode_self]
    exact ⟨inum, valid⟩
  · rw [icache_setInode_of_ne same]
    exact ⟨rfl, id⟩

/-- The cache stays coherent when one slot and its inode on the disk change together. -/
theorem Coherent.replace (coherent : k.Coherent) {fs : Fs} (wellFormed : fs.view.WellFormed)
    (others : ∀ jp, jp ≠ ip → 0 < (k.icache jp).ref → (k.icache jp).valid = true →
      fs.Locked (k.icache jp))
    (nonneg : 0 ≤ node.ref) (dev : 0 < node.ref → node.dev = ROOTDEV)
    (alone : 0 < node.ref → ∀ jp, jp ≠ ip → 0 < (k.icache jp).ref →
      (k.icache jp).inum ≠ node.inum)
    (synced : 0 < node.ref → node.valid = true → fs.Locked node)
    (locked : 0 < node.ref → node.busy = true → node.valid = true) :
    Coherent { k.setInode ip node with fs } := by
  have look : ∀ jp, (jp = ip ∧ (k.setInode ip node).icache jp = node) ∨
      (jp ≠ ip ∧ (k.setInode ip node).icache jp = k.icache jp) := by
    intro jp
    by_cases same : jp = ip
    · exact .inl ⟨same, by rw [same, icache_setInode_self]⟩
    · exact .inr ⟨same, icache_setInode_of_ne same _ _⟩
  refine ⟨wellFormed, ?_, ?_, ?_, ?_, ?_⟩
  · intro jp
    rcases look jp with ⟨_, here⟩ | ⟨_, there⟩
    · simpa only [here] using nonneg
    · simpa only [there] using coherent.nonneg jp
  · intro jp
    rcases look jp with ⟨_, here⟩ | ⟨_, there⟩
    · simpa only [here] using dev
    · simpa only [there] using coherent.dev jp
  · intro jp lp used used' same
    rcases look jp with ⟨rfl, here⟩ | ⟨other, there⟩ <;>
      rcases look lp with ⟨rfl, here'⟩ | ⟨other', there'⟩
    · rfl
    · simp only [here, there'] at used used' same
      exact absurd same.symm (alone used lp other' used')
    · simp only [there, here'] at used used' same
      exact absurd same (alone used' jp other used)
    · simp only [there, there'] at used used' same
      exact coherent.unique jp lp used used' same
  · intro jp
    rcases look jp with ⟨_, here⟩ | ⟨other, there⟩
    · simpa only [here] using synced
    · simpa only [there] using others jp other
  · intro jp
    rcases look jp with ⟨_, here⟩ | ⟨_, there⟩
    · simpa only [here] using locked
    · simpa only [there] using coherent.locked jp

theorem Coherent.touch (coherent : k.Coherent) (used : 0 < node.ref → 0 < (k.icache ip).ref)
    (nonneg : 0 ≤ node.ref) (dev : node.dev = (k.icache ip).dev)
    (inum : node.inum = (k.icache ip).inum) (din : node.din = (k.icache ip).din)
    (valid : node.valid = (k.icache ip).valid) (busy : node.busy = true → node.valid = true) :
    (k.setInode ip node).Coherent := by
  refine coherent.replace coherent.wellFormed (fun jp _ => coherent.synced jp) nonneg ?_ ?_ ?_
    fun _ => busy
  · intro held
    rw [dev]
    exact coherent.dev ip (used held)
  · intro held jp other used' same
    exact other (coherent.unique jp ip used' (used held) (same.trans inum))
  · intro held valid'
    exact (coherent.synced ip (used held) (valid ▸ valid')).congr inum din

end Slots

/-! ### The functions of the cache -/

section Functions

variable {k : Kernel} {ip : Slot}

/-- A slot was taken for the inode `inum`: its entry counts one more reference. -/
structure Got (k k' : Kernel) (inum : Nat) (ip : Slot) : Prop where
  coherent : k'.Coherent
  fs : k'.fs = k.fs
  steady : k.Steady k'
  inum : (k'.icache ip).inum = inum
  ref : (k'.icache ip).ref = (k.icache ip).ref + 1
  fresh : (k.icache ip).ref = 0 → (k'.icache ip).valid = false
  others : ∀ jp, jp ≠ ip → k'.icache jp = k.icache jp

theorem Coherent.idup (coherent : k.Coherent) (used : 0 < (k.icache ip).ref) :
    Got k (k.idup ip) (k.icache ip).inum ip where
  coherent := coherent.touch (fun _ => used) (by
    show 0 ≤ (k.icache ip).ref + 1
    omega) rfl rfl rfl rfl (coherent.locked ip used)
  fs := rfl
  steady := .setInode rfl id
  inum := by rw [Kernel.idup, icache_setInode_self]
  ref := by rw [Kernel.idup, icache_setInode_self]
  fresh unused := absurd used (by rw [unused]; decide)
  others jp other := icache_setInode_of_ne other _ _

theorem cached_eq_some {dev inum : Nat} (found : k.cached dev inum = some ip) :
    0 < (k.icache ip).ref ∧ (k.icache ip).inum = inum := by
  have holds := List.find?_some found
  simp only [decide_eq_true_eq] at holds
  exact ⟨holds.1, holds.2.2⟩

theorem cached_eq_none {inum : Nat} (coherent : k.Coherent) (none' : k.cached ROOTDEV inum = none)
    (used : 0 < (k.icache ip).ref) : (k.icache ip).inum ≠ inum := by
  intro same
  have absent := List.find?_eq_none.mp none' ip (List.mem_finRange ip)
  simp only [decide_eq_true_eq] at absent
  exact absent ⟨used, coherent.dev ip used, same⟩

/-- `iget` gives the slot of an inode that is cached, or a free one. -/
theorem Coherent.iget_meets (coherent : k.Coherent) (inum : Nat) :
    Meets (k.iget ROOTDEV inum) (fun (ip, k') => Got k k' inum ip) Safe := by
  unfold iget
  cases found : k.cached ROOTDEV inum with
  | some ip =>
    obtain ⟨used, same⟩ := cached_eq_some found
    have got := coherent.idup used
    rw [same] at got
    exact got
  | none =>
    cases slot : k.emptySlot with
    | none =>
      intro absurdity
      cases absurdity
    | some ip =>
      have free : (k.icache ip).ref = 0 := by simpa using List.find?_some slot
      have fresh : (k.setInode ip { k.icache ip with
          dev := ROOTDEV, inum := inum, ref := 1, busy := false, valid := false }).Coherent :=
        coherent.replace coherent.wellFormed (fun jp _ => coherent.synced jp) Int.one_nonneg
        (fun _ => rfl) (fun _ jp _ used => cached_eq_none coherent found used)
        (fun _ absurdity => by cases absurdity) (fun _ absurdity => by cases absurdity)
      refine ⟨fresh, rfl, ?_, ?_, ?_, fun _ => ?_, fun jp other => icache_setInode_of_ne other _ _⟩
      · intro jp used
        have other : jp ≠ ip := by
          rintro rfl
          omega
        rw [icache_setInode_of_ne other]
        exact ⟨rfl, id⟩
      · rw [icache_setInode_self]
      · rw [icache_setInode_self, free]
        rfl
      · rw [icache_setInode_self]

/-- The slot `ip` was locked or unlocked. -/
structure Flagged (k k' : Kernel) (ip : Slot) : Prop where
  coherent : k'.Coherent
  fs : k'.fs = k.fs
  steady : k.Steady k'
  ref : ∀ jp, (k'.icache jp).ref = (k.icache jp).ref
  others : ∀ jp, jp ≠ ip → k'.icache jp = k.icache jp

/-- `ilock` reads the inode if its copy is not valid. -/
theorem Coherent.ilock_meets (coherent : k.Coherent)
    (inside : (k.icache ip).inum < k.fs.readsb.ninodes.toNat) :
    Meets (k.ilock ip)
      (fun k' => Flagged k k' ip ∧ (k'.icache ip).valid = true ∧ (k'.icache ip).busy = true)
      fun halt => halt = .sleep ∨ Safe halt := by
  unfold ilock
  simp only
  split
  · right
    intro absurdity
    cases absurdity
  next unused =>
  have used : 0 < (k.icache ip).ref := by omega
  split
  · exact .inl rfl
  split
  · next valid =>
    refine ⟨⟨?_, rfl, .setInode rfl id, ?_, fun jp other => icache_setInode_of_ne other _ _⟩, ?_,
      ?_⟩
    · exact coherent.touch (fun _ => used) (coherent.nonneg ip) rfl rfl rfl rfl fun _ => valid
    · intro jp
      by_cases same : jp = ip
      · rw [same, icache_setInode_self]
      · rw [icache_setInode_of_ne same]
    · rw [icache_setInode_self]
      exact valid
    · rw [icache_setInode_self]
  split
  · right
    intro absurdity
    cases absurdity
  next live =>
  have din := Fs.view_din_of_lt (s := k.fs) inside
  refine ⟨⟨?_, rfl, ?_, ?_, fun jp other => icache_setInode_of_ne other _ _⟩, ?_, ?_⟩
  · refine coherent.replace coherent.wellFormed (fun jp _ => coherent.synced jp)
      (coherent.nonneg ip)
      (fun _ => coherent.dev ip used) ?_ ?_ fun _ _ => rfl
    · intro _ jp other used' same
      exact other (coherent.unique jp ip used' used same)
    · intro _ _
      exact ⟨inside, coherent.wellFormed, din, live⟩
  · exact .setInode rfl fun _ => rfl
  · intro jp
    by_cases same : jp = ip
    · rw [same, icache_setInode_self]
    · rw [icache_setInode_of_ne same]
  · rw [icache_setInode_self]
  · rw [icache_setInode_self]

theorem Coherent.iunlock_meets (coherent : k.Coherent) (ip : Slot) :
    Meets (k.iunlock ip) (fun k' => Flagged k k' ip) Safe := by
  unfold iunlock
  simp only
  split
  · intro absurdity
    cases absurdity
  next locked =>
  have used : 0 < (k.icache ip).ref := by
    by_contra unused
    exact locked (.inr (by omega))
  refine ⟨?_, rfl, .setInode rfl id, ?_, fun jp other => icache_setInode_of_ne other _ _⟩
  · exact coherent.touch (fun _ => used) (coherent.nonneg ip) rfl rfl rfl rfl
      fun absurdity => by cases absurdity
  · intro jp
    by_cases same : jp = ip
    · rw [same, icache_setInode_self]
    · rw [icache_setInode_of_ne same]

/-! ### Dropping a reference -/

/-- A reference to `ip` was dropped. If it was the last one to a valid copy of an inode without
links, the inode was removed from the disk. -/
structure Dropped (k k' : Kernel) (ip : Slot) : Prop where
  coherent : k'.Coherent
  freed : (k.icache ip).ref = 1 → (k.icache ip).valid = true → (k.icache ip).din.nlink = 0 →
    k.fs.view.Removed k'.fs.view (k.icache ip).inum
  kept : (k.icache ip).ref ≠ 1 ∨ (k.icache ip).valid = false ∨ (k.icache ip).din.nlink ≠ 0 →
    k'.fs = k.fs ∧ (k'.icache ip).valid = (k.icache ip).valid
  inum : (k'.icache ip).inum = (k.icache ip).inum
  ref : (k'.icache ip).ref = (k.icache ip).ref - 1
  others : ∀ jp, jp ≠ ip → k'.icache jp = k.icache jp
  moves : k.fs.Moves k'.fs 0

theorem Coherent.unref (coherent : k.Coherent) (used : 0 < (k.icache ip).ref) :
    (k.unref ip).Coherent :=
  coherent.touch (fun _ => used) (by
    show 0 ≤ (k.icache ip).ref - 1
    omega) rfl rfl rfl rfl (coherent.locked ip used)

/-- The last reference to an inode without links frees it with its blocks. -/
theorem Coherent.ifree_meets (coherent : k.Coherent) (last : (k.icache ip).ref = 1)
    (valid : (k.icache ip).valid = true) :
    Meets (k.ifree ip)
      (fun m => (m.unref ip).Coherent ∧ k.fs.view.Removed m.fs.view (k.icache ip).inum ∧
        (m.icache ip).inum = (k.icache ip).inum ∧ (m.icache ip).ref = (k.icache ip).ref ∧
        (∀ jp, jp ≠ ip → m.icache jp = k.icache jp) ∧ k.fs.Moves m.fs 0) Safe := by
  have used : 0 < (k.icache ip).ref := by omega
  have locked := coherent.synced ip used valid
  have live : k.fs.view.Live (k.icache ip).inum := locked.viewOf_eq ▸ locked.holds.live
  unfold ifree
  refine (Halt.lift_meets (locked.itrunc_meets.mono (fun _ good => good) fun _ log =>
    log.safe)).bind ?_
  rintro ⟨node, s₁⟩ ⟨rfl, ⟨m, freed, view₁⟩, logs₁⟩
  simp only
  have inside : (k.icache ip).inum < s₁.readsb.ninodes.toNat := by
    have sb : s₁.readsb = k.fs.readsb := by
      show s₁.view.sb = k.fs.view.sb
      rw [view₁]
      exact freed.sb
    rw [sb]
    exact locked.inside
  unfold Fs.iupdate Fs.putDinode
  refine (Halt.lift_meets ((s₁.logWrite_meets _ _ ∅).mono (fun _ good => good)
    fun _ bad => bad.logPanic.safe)).bind ?_
  rintro s₂ ⟨stored, logs₂⟩
  have view₂ := Fs.view_putDinode inside stored
  rw [view₁, View.setDin_setDin] at view₂
  have removed : k.fs.view.Removed s₂.view (k.icache ip).inum := by
    rw [view₂]
    refine ⟨freed.sb, freed.data, ?_, ?_, ?_⟩
    · unfold View.Live
      rw [View.din_setDin_self]
      exact not_not.mpr rfl
    · intro j other
      rw [View.din_setDin_of_ne other, freed.din]
    · intro b
      rw [View.bit_setDin, freed.bits]
      simp
  have wellFormed := removed.wellFormed coherent.wellFormed live
  have logs : k.fs.LogsBelow s₂ k.fs.readsb.dataStart :=
    logs₁.trans (logs₂.logsBelow (Superblock.IBLOCK_lt_dataStart locked.inside))
  refine ⟨?_, removed, ?_, ?_, ?_, .of_removed live removed logs⟩
  · unfold Kernel.unref setInode
    simp only [update_self, update_idem]
    refine coherent.replace wellFormed ?_ ?_ ?_ ?_ ?_ ?_
    · intro jp other used' valid'
      refine (coherent.synced jp used' valid').carry removed.sb wellFormed (removed.others _ ?_)
      exact fun same => other (coherent.unique jp ip used' used same)
    all_goals simp only [last]
    · decide
    all_goals exact fun absurdity => absurd absurdity (by decide)
  · simp only [icache_setInode_self]
  · simp only [icache_setInode_self]
  · intro jp other
    exact icache_setInode_of_ne other _ _

/-- `iput` drops a reference, and frees the inode if nothing refers to it. -/
theorem Coherent.iput_meets (coherent : k.Coherent) (used : 0 < (k.icache ip).ref) :
    Meets (k.iput ip) (fun k' => Dropped k k' ip) Safe := by
  unfold iput
  simp only
  split
  · next frees =>
    split
    · intro absurdity
      cases absurdity
    · refine (coherent.ifree_meets frees.1 frees.2.1).bind ?_
      rintro m ⟨coherent', removed, inum, ref, others, moves⟩
      refine ⟨coherent', fun _ _ _ => removed, ?_, ?_, ?_, ?_, moves⟩
      · rintro (many | invalid | linked)
        · exact absurd frees.1 many
        · rw [frees.2.1] at invalid
          cases invalid
        · exact absurd frees.2.2 linked
      · rw [Kernel.unref, icache_setInode_self]
        exact inum
      · rw [Kernel.unref, icache_setInode_self]
        show (m.icache ip).ref - 1 = _
        rw [ref]
      · intro jp other
        rw [Kernel.unref, icache_setInode_of_ne other, others jp other]
  · next keeps =>
    refine ⟨coherent.unref used, fun last valid unlinked => absurd ⟨last, valid, unlinked⟩ keeps,
      fun _ => ⟨rfl, ?_⟩, ?_, ?_, ?_, .refl _ 0⟩
    · rw [Kernel.unref, icache_setInode_self]
    · rw [Kernel.unref, icache_setInode_self]
    · rw [Kernel.unref, icache_setInode_self]
    · intro jp other
      exact icache_setInode_of_ne other _ _

/-! ### Changes through a locked inode -/

/-- The disk changed through the locked inode `ip` and nowhere else. -/
structure Stored (k k' : Kernel) (ip : Slot) : Prop where
  coherent : k'.Coherent
  sb : k'.fs.readsb = k.fs.readsb
  inode : k'.icache ip = { k.icache ip with din := (k'.icache ip).din }
  others : ∀ jp, jp ≠ ip → k'.icache jp = k.icache jp
  otherDins : ∀ j, j ≠ (k.icache ip).inum → k'.fs.view.din j = k.fs.view.din j

theorem Coherent.stored (coherent : k.Coherent) (used : 0 < (k.icache ip).ref)
    (valid : (k.icache ip).valid = true) {node : Inode} {fs : Fs}
    (inode : node = { k.icache ip with din := node.din }) (locked : fs.Locked node)
    (sb : fs.readsb = k.fs.readsb)
    (otherDins : ∀ j, j ≠ (k.icache ip).inum → fs.view.din j = k.fs.view.din j) :
    Stored k { k.setInode ip node with fs } ip := by
  have ref : node.ref = (k.icache ip).ref := by rw [inode]
  have inum : node.inum = (k.icache ip).inum := by rw [inode]
  have dev : node.dev = (k.icache ip).dev := by rw [inode]
  have valid' : node.valid = (k.icache ip).valid := by rw [inode]
  refine ⟨?_, sb, ?_, fun jp other => icache_setInode_of_ne other _ _, otherDins⟩
  · refine coherent.replace locked.wellFormed ?_ (ref ▸ coherent.nonneg ip) ?_ ?_
      (fun _ _ => locked) ?_
    · intro jp other used' valid''
      refine (coherent.synced jp used' valid'').carry sb locked.wellFormed (otherDins _ ?_)
      exact fun same => other (coherent.unique jp ip used' used same)
    · intro _
      rw [dev]
      exact coherent.dev ip used
    · intro _ jp other used' same
      exact other (coherent.unique jp ip used' used (same.trans inum))
    · intro _ _
      rw [valid', valid]
  · show (k.setInode ip node).icache ip =
      { k.icache ip with din := ((k.setInode ip node).icache ip).din }
    rw [icache_setInode_self]
    exact inode

theorem Stored.steady {k' : Kernel} (stored : Stored k k' ip) : k.Steady k' := by
  intro jp _
  by_cases same : jp = ip
  · subst same
    rw [stored.inode]
    exact ⟨rfl, id⟩
  · rw [stored.others jp same]
    exact ⟨rfl, id⟩

theorem Stored.ref {k' : Kernel} (stored : Stored k k' ip) (jp : Slot) :
    (k'.icache jp).ref = (k.icache jp).ref := by
  by_cases same : jp = ip
  · subst same
    rw [stored.inode]
  · rw [stored.others jp same]

/-- **`iupdate`** of a locked inode whose links or device numbers were assigned. -/
theorem Coherent.iupdate_meets (coherent : k.Coherent) (used : 0 < (k.icache ip).ref)
    (valid : (k.icache ip).valid = true) {din : Dinode} (fields : din = { (k.icache ip).din with
      nlink := din.nlink, major := din.major, minor := din.minor }) :
    Meets (k.iupdate ip din)
      (fun k' => Stored k k' ip ∧ k'.fs.view = k.fs.view.setDin (k.icache ip).inum din ∧
        (k'.icache ip).din = din ∧ k.fs.Moves k'.fs 0) Safe := by
  have before := coherent.synced ip used valid
  have live : k.fs.view.Live (k.icache ip).inum := before.viewOf_eq ▸ before.holds.live
  have type : din.type = (k.icache ip).din.type := by rw [fields]
  have size : din.size = (k.icache ip).din.size := by rw [fields]
  have addrs : din.addrs = (k.icache ip).din.addrs := by rw [fields]
  unfold Kernel.iupdate
  simp only
  unfold Fs.iupdate Fs.putDinode
  refine (Halt.lift_meets ((k.fs.logWrite_meets _ _ ∅).mono (fun _ good => good)
    fun _ bad => bad.logPanic.safe)).bind ?_
  rintro fs ⟨stored, logs⟩
  have view := Fs.view_putDinode before.inside stored
  have type' : din.type = 0 ↔ (k.fs.view.din (k.icache ip).inum).type = 0 := by
    rw [before.synced, type]
  have addrs' : din.addrs = (k.fs.view.din (k.icache ip).inum).addrs := by
    rw [before.synced, addrs]
  have wellFormed : fs.view.WellFormed := by
    rw [view]
    refine ⟨coherent.wellFormed.owned.setDin addrs' type', ?_, ?_⟩
    · intro j alive
      have alive' := (View.live_setDin type' j).mp alive
      by_cases same : j = (k.icache ip).inum
      · rw [same, View.din_setDin_self, size]
        exact before.small
      · rw [View.din_setDin_of_ne same]
        exact coherent.wellFormed.small j alive'
    · intro j alive
      have shaped :=
        (coherent.wellFormed.shaped j ((View.live_setDin type' j).mp alive)).setDin addrs'
      by_cases same : j = (k.icache ip).inum
      · subst same
        rw [before.synced] at shaped
        rw [View.din_setDin_self, size]
        exact shaped
      · rw [View.din_setDin_of_ne same]
        exact shaped
  have sb : fs.readsb = k.fs.readsb := by
    show fs.view.sb = k.fs.view.sb
    rw [view]
    rfl
  have locked : fs.Locked { k.icache ip with din } := by
    refine ⟨sb ▸ before.inside, wellFormed, ?_, ?_⟩
    · show fs.view.din (k.icache ip).inum = din
      rw [view, View.din_setDin_self]
    · show din.type ≠ 0
      rw [type]
      exact before.live
  refine ⟨coherent.stored used valid rfl locked sb ?_, view, ?_, ?_⟩
  · intro j other
    rw [view, View.din_setDin_of_ne other]
  · show ((k.setInode ip { k.icache ip with din }).icache ip).din = din
    rw [icache_setInode_self]
  · exact .setDin view (View.own_setDin addrs' type')
      (logs.logsBelow (Superblock.IBLOCK_lt_dataStart before.inside))

/-- **`writei`** of a locked inode writes the bytes, or rejects them and changes nothing. -/
theorem Coherent.writei_meets (coherent : k.Coherent) (used : 0 < (k.icache ip).ref)
    (valid : (k.icache ip).valid = true) (src : List UInt8) (off : Nat)
    (word : off < 2 ^ 32 ∧ src.length < 2 ^ 32) :
    Meets (k.writei ip src off)
      (fun (r, k') => Stored k k' ip ∧
        (¬ Fs.Fits (k.icache ip) off src.length →
          k' = k ∧ ((k.icache ip).din.type ≠ T_DEV → r = -1)) ∧
        (Fs.Fits (k.icache ip) off src.length → r = src.length ∧ ∃ taken sectors,
          Fs.Written k.fs k'.fs (k.icache ip) (k'.icache ip) off src taken sectors)) Safe := by
  have locked := coherent.synced ip used valid
  have unchanged : Stored k { k.setInode ip (k.icache ip) with fs := k.fs } ip :=
    coherent.stored used valid rfl locked rfl fun _ _ => rfl
  have same : ({ k.setInode ip (k.icache ip) with fs := k.fs } : Kernel) = k := by
    unfold setInode
    rw [update_eq_self]
  unfold Kernel.writei
  by_cases fits : Fs.Fits (k.icache ip) off src.length
  · refine (Halt.lift_meets
      ((locked.writei_meets fits.1 fits.2.1 fits.2.2).mono (fun _ good => good)
      fun _ stuck => stuck.safe)).bind ?_
    rintro ⟨r, node, fs⟩ ⟨rfl, taken, sectors, written⟩
    refine ⟨coherent.stored used valid written.inode written.locked written.effect.sb
      written.effect.otherDins, fun absurdity => absurd fits absurdity,
      fun _ => ⟨rfl, taken, sectors, ?_⟩⟩
    show Fs.Written k.fs fs (k.icache ip) ((k.setInode ip node).icache ip) off src taken sectors
    rw [icache_setInode_self]
    exact written
  · have rejected : ∃ r, k.fs.writei (k.icache ip) src off = .ok (r, k.icache ip, k.fs) ∧
        ((k.icache ip).din.type ≠ T_DEV → r = -1) := by
      by_cases device : (k.icache ip).din.type = T_DEV
      · obtain ⟨r, result⟩ := Fs.writei_device (s := k.fs) device src off
        exact ⟨r, result, fun file => absurd device file⟩
      · refine ⟨-1, Fs.writei_outside device ?_, fun _ => rfl⟩
        have outside :
            ¬ (off ≤ (k.icache ip).din.size.toNat ∧ off + src.length ≤ MAXFILE * BSIZE) :=
          fun bounds => fits ⟨device, bounds⟩
        rw [MAXFILE_eq, BSIZE_eq] at *
        omega
    obtain ⟨r, result, failed⟩ := rejected
    rw [result]
    exact ⟨unchanged, fun _ => ⟨same, failed⟩, fun absurdity => absurd absurdity fits⟩

theorem Coherent.ialloc_meets (coherent : k.Coherent) (type : Int16) :
    Meets (k.ialloc ROOTDEV type)
      (fun (ip, k') => ∃ inum m, 1 ≤ inum ∧ inum < k.fs.readsb.ninodes.toNat ∧
        ¬ k.fs.view.Live inum ∧ Got m k' inum ip ∧ m.icache = k.icache ∧ m.Coherent ∧
        m.fs.view = k.fs.view.setDin inum { Dinode.zero with type } ∧ k.fs.Moves m.fs 0) Safe := by
  unfold Kernel.ialloc Fs.ialloc
  cases found : (List.range' 1 (k.fs.readsb.ninodes.toNat - 1)).find? fun inum =>
      (k.fs.dinode inum).type == 0 with
  | none =>
    intro absurdity
    cases absurdity
  | some inum =>
    have free := List.find?_some found
    have member := List.mem_of_find?_eq_some found
    rw [List.mem_range'_1] at member
    have inside : inum < k.fs.readsb.ninodes.toNat := by omega
    have dead : ¬ k.fs.view.Live inum := by
      unfold View.Live
      rw [Fs.view_din_of_lt inside]
      simpa using free
    have zero : ∀ l, ({ Dinode.zero with type } : Dinode).addr l = 0 := by
      intro l
      unfold Dinode.addr
      split <;> rfl
    have stores : Meets (k.fs.putDinode inum { Dinode.zero with type })
        (fun fs => fs.view = k.fs.view.setDin inum { Dinode.zero with type } ∧ k.fs.Moves fs 0)
        fun why => Safe (.panic why) := by
      unfold Fs.putDinode
      refine (k.fs.logWrite_meets _ _ ∅).mono ?_ fun _ bad => bad.logPanic.safe
      rintro fs ⟨stored, logs⟩
      have view := Fs.view_putDinode inside stored
      exact ⟨view, .setDin view (View.own_addInode dead zero)
        (logs.logsBelow (Superblock.IBLOCK_lt_dataStart inside))⟩
    have allocated : Meets (do
        let s ← k.fs.putDinode inum { Dinode.zero with type }
        return (inum, s))
        (fun r => r.1 = inum ∧ r.2.view = k.fs.view.setDin inum { Dinode.zero with type } ∧
          k.fs.Moves r.2 0)
        fun why => Safe (.panic why) := stores.bind fun fs done => ⟨rfl, done⟩
    refine (Halt.lift_meets allocated).bind ?_
    rintro ⟨number, fs⟩ ⟨same, view, moves⟩
    simp only at same view moves
    rw [same]
    have wellFormed : fs.view.WellFormed := by
      have after := coherent.wellFormed.addInode dead zero (d := { Dinode.zero with type }) rfl
      rwa [← view] at after
    have coherent' : ({ k with fs } : Kernel).Coherent := by
      refine ⟨wellFormed, coherent.nonneg, coherent.dev, coherent.unique, ?_, coherent.locked⟩
      intro ip used valid
      have locked := coherent.synced ip used valid
      have other : (k.icache ip).inum ≠ inum := by
        intro same
        exact dead (same ▸ locked.viewOf_eq ▸ locked.holds.live)
      refine locked.carry ?_ wellFormed ?_
      · show fs.view.sb = k.fs.view.sb
        rw [view]
        rfl
      · rw [view, View.din_setDin_of_ne other]
    refine (coherent'.iget_meets inum).mono ?_ fun _ safe => safe
    rintro ⟨ip, k'⟩ got
    exact ⟨inum, { k with fs }, by omega, inside, dead, got, rfl, coherent', view, moves⟩

theorem Coherent.beginOp_meets (coherent : k.Coherent) (apart : k.fs.Apart) :
    Meets k.beginOp (fun k' => k'.Coherent ∧ k'.fs.Apart ∧ k'.fs.view = k.fs.view ∧
      k'.icache = k.icache) fun halt => halt = .sleep := by
  unfold Kernel.beginOp
  cases begun : k.fs.beginOp with
  | none => rfl
  | some fs =>
    obtain ⟨apart', view⟩ := apart.beginOp begun
    have wellFormed : fs.view.WellFormed := view ▸ coherent.wellFormed
    refine ⟨⟨wellFormed, coherent.nonneg, coherent.dev, coherent.unique, ?_, coherent.locked⟩,
      apart', view, rfl⟩
    intro ip used valid
    exact (coherent.synced ip used valid).carry (congrArg View.sb view) wellFormed (by rw [view])

/-- A commit leaves the cache coherent, since it changes no file. -/
theorem Coherent.endOp_meets (coherent : k.Coherent) (apart : k.fs.Apart) :
    Meets k.endOp (fun k' => k'.Coherent ∧ k'.fs.Apart ∧ k.fs.view.Agrees k'.fs.view ∧
      k'.icache = k.icache) Safe := by
  unfold Kernel.endOp
  have ends : Meets k.fs.endOp (fun fs => fs.Apart ∧ k.fs.view.Agrees fs.view)
      fun why => Safe (.panic why) := by
    refine .intro (fun fs ended => apart.endOp ended) fun why failed => ?_
    unfold Fs.endOp at failed
    rcases bind_eq_error.mp failed with busy | ⟨⟨doCommit, log⟩, _, absurdity⟩
    · unfold Log.endOp at busy
      simp only at busy
      split at busy
      · cases busy
        intro absurdity
        cases absurdity
      · split at busy <;> cases busy
    · cases doCommit <;> cases absurdity
  refine (Halt.lift_meets ends).bind ?_
  rintro fs ⟨apart', agrees⟩
  have wellFormed := agrees.wellFormed apart.inside coherent.wellFormed
  refine ⟨⟨wellFormed, coherent.nonneg, coherent.dev, coherent.unique, ?_, coherent.locked⟩,
    apart', agrees, rfl⟩
  intro ip used valid
  exact (coherent.synced ip used valid).carry agrees.sb wellFormed (by rw [agrees.din])

end Functions

end Kernel

end Xv6
