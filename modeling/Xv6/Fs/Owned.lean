/-
**Who owns which block.**

The address map of an inode has the slots `0` to `MAXFILE`: direct addresses, entries of the
indirect block, and at `MAXFILE` the indirect block itself. `View.Owned` says that the slots of the
allocated inodes own the blocks exactly, inside the data area; `View.Shaped v i c` that inode `i`
has its first `c` blocks and no other. `View.WellFormed` puts them together.
-/

import Mathlib.Order.Lattice
import Xv6.Fs.Alloc
import Xv6.Lib.Owns

namespace Xv6

open Lib

/-- The number of blocks `size` bytes take. -/
def blocksOf (size : Nat) : Nat := (size + BSIZE - 1) / BSIZE

theorem blocksOf_le {size c : Nat} : blocksOf size ≤ c ↔ size ≤ c * BSIZE := by
  unfold blocksOf
  rw [BSIZE_eq]
  omega

theorem blocksOf_mono {n m : Nat} (le : n ≤ m) : blocksOf n ≤ blocksOf m :=
  blocksOf_le.mpr (le.trans (blocksOf_le.mp le_rfl))

theorem blocksOf_max (n m : Nat) : blocksOf (max n m) = max (blocksOf n) (blocksOf m) :=
  Monotone.map_max (fun _ _ le => blocksOf_mono le)

namespace View

/-- Slot `k` of the address map of the inode `d`; `0` is no block. -/
def slotOf (v : View) (d : Dinode) (k : Nat) : Nat :=
  if k < NDIRECT then d.addr k
  else if k < MAXFILE then
    if d.addr NDIRECT = 0 then 0 else ((v.data (d.addr NDIRECT)).word (k - NDIRECT)).toNat
  else if k = MAXFILE then d.addr NDIRECT
  else 0

/-- Slot `k` of inode `i`. -/
def slot (v : View) (i k : Nat) : Nat := v.slotOf (v.din i) k

/-- Inode `i` is allocated. -/
def Live (v : View) (i : Nat) : Prop := (v.din i).type ≠ 0

instance (v : View) (i : Nat) : Decidable (v.Live i) := inferInstanceAs (Decidable (_ ≠ _))

/-- The block a slot owns. -/
def own (v : View) (place : Nat × Nat) : Option Nat :=
  if v.Live place.1 ∧ v.slot place.1 place.2 ≠ 0 then some (v.slot place.1 place.2) else none

/-- The slots of the allocated inodes own the used blocks. -/
structure Owned (v : View) : Prop where
  owns : Owns v.own v.bit fun b => v.sb.dataStart ≤ b ∧ b < v.sb.logStart
  range : ∀ {place b}, v.own place = some b → v.sb.dataStart ≤ b ∧ b < v.sb.size.toNat
  metaUsed : v.MetaUsed

/-- Inode `i` has its first `c` blocks, and the indirect block if they reach it, and no other. -/
structure Shaped (v : View) (i c : Nat) : Prop where
  bound : c ≤ MAXFILE
  slots : ∀ k, k ≤ MAXFILE → (v.slot i k ≠ 0 ↔ k < c ∨ k = MAXFILE ∧ NDIRECT < c)

/-- **A well-formed file system.** -/
structure WellFormed (v : View) : Prop where
  owned : v.Owned
  small : ∀ i, v.Live i → (v.din i).size.toNat ≤ MAXFILE * BSIZE
  shaped : ∀ i, v.Live i → v.Shaped i (blocksOf (v.din i).size.toNat)

/-! ### Slots -/

section Slots

variable {v v' : View} {d : Dinode} {i k : Nat}

theorem slotOf_direct (direct : k < NDIRECT) : v.slotOf d k = d.addr k := if_pos direct

theorem slotOf_indirect : v.slotOf d MAXFILE = d.addr NDIRECT := rfl

theorem slotOf_beyond (beyond : MAXFILE < k) : v.slotOf d k = 0 := by
  have direct : ¬ k < NDIRECT := by
    unfold MAXFILE at beyond
    omega
  unfold slotOf
  rw [if_neg direct, if_neg (by omega), if_neg (by omega)]

theorem slotOf_entry (from' : NDIRECT ≤ k) (below : k < MAXFILE) (some' : d.addr NDIRECT ≠ 0) :
    v.slotOf d k = ((v.data (d.addr NDIRECT)).word (k - NDIRECT)).toNat := by
  unfold slotOf
  rw [if_neg (Nat.not_lt.mpr from'), if_pos below, if_neg some']

theorem slotOf_entry_none (from' : NDIRECT ≤ k) (below : k < MAXFILE) (none' : d.addr NDIRECT = 0) :
    v.slotOf d k = 0 := by
  unfold slotOf
  rw [if_neg (Nat.not_lt.mpr from'), if_pos below, if_pos none']

theorem slotOf_congr
    (same : d.addr NDIRECT ≠ 0 → v'.data (d.addr NDIRECT) = v.data (d.addr NDIRECT)) (k : Nat) :
    v'.slotOf d k = v.slotOf d k := by
  unfold slotOf
  by_cases none' : d.addr NDIRECT = 0
  · rw [if_pos none', if_pos none']
  · rw [same none']

theorem own_eq_some {place : Nat × Nat} {b : Nat} :
    v.own place = some b ↔ v.Live place.1 ∧ b ≠ 0 ∧ v.slot place.1 place.2 = b := by
  unfold own
  constructor
  · intro owned
    split at owned
    · next holds =>
      obtain rfl := Option.some.inj owned
      exact ⟨holds.1, holds.2, rfl⟩
    · cases owned
  · rintro ⟨live, some', rfl⟩
    rw [if_pos ⟨live, some'⟩]

theorem own_eq_none {place : Nat × Nat} :
    v.own place = none ↔ (v.Live place.1 → v.slot place.1 place.2 = 0) := by
  unfold own
  by_cases holds : v.Live place.1 ∧ v.slot place.1 place.2 ≠ 0
  · rw [if_pos holds]
    simp [holds.1, holds.2]
  · rw [if_neg holds]
    simpa using holds

theorem own_slot (live : v.Live i) (some' : v.slot i k ≠ 0) : v.own (i, k) = some (v.slot i k) :=
  own_eq_some.mpr ⟨live, some', rfl⟩

end Slots

namespace Owned

variable {v v' : View} {i j k l b : Nat}

theorem slot_range (owned : v.Owned) (live : v.Live i) (some' : v.slot i k ≠ 0) :
    v.sb.dataStart ≤ v.slot i k ∧ v.slot i k < v.sb.size.toNat :=
  owned.range (own_slot live some')

theorem slot_used (owned : v.Owned) (live : v.Live i) (some' : v.slot i k ≠ 0) :
    v.bit (v.slot i k) = true :=
  owned.owns.used_of_own (own_slot live some')

theorem slot_ne_free (owned : v.Owned) (live : v.Live i) (some' : v.slot i k ≠ 0)
    (free : b ∈ v.free) : v.slot i k ≠ b := by
  rintro rfl
  rw [mem_free, owned.slot_used live some'] at free
  exact Bool.noConfusion free.2

/-- No block stands in two slots. -/
theorem slot_inj (owned : v.Owned) (live : v.Live i) (live' : v.Live j) (some' : v.slot i k ≠ 0)
    (same : v.slot i k = v.slot j l) : i = j ∧ k = l := by
  have equal := owned.owns.inj (own_slot live some')
    (own_eq_some.mpr ⟨live', some', same.symm⟩ : v.own (j, l) = some (v.slot i k))
  exact Prod.mk.inj equal

theorem free_range (owned : v.Owned) (free : b ∈ v.free) :
    v.sb.dataStart ≤ b ∧ b < v.sb.size.toNat :=
  ⟨owned.metaUsed.dataStart_le free, (mem_free.mp free).1⟩

theorem free_ne_zero (owned : v.Owned) (free : b ∈ v.free) : b ≠ 0 := by
  have := (owned.free_range free).1
  have := v.sb.two_le_dataStart
  omega

theorem free_lt (owned : v.Owned) (free : b ∈ v.free) : b < 2 ^ 32 :=
  (owned.free_range free).2.trans (UInt32.toNat_lt _)

/-- A free block put into an empty slot keeps the ownership exact. -/
theorem attach (owned : v.Owned) (live : v.Live i) (free : b ∈ v.free) (empty : v.slot i k = 0)
    (sb : v'.sb = v.sb) (bits : v'.bit = Function.update v.bit b true)
    (lives : ∀ j, v'.Live j ↔ v.Live j)
    (slots : ∀ j l, v.Live j → v'.slot j l = if j = i ∧ l = k then b else v.slot j l) :
    v'.Owned := by
  have nonzero := owned.free_ne_zero free
  have here : v'.own (i, k) = some b :=
    own_eq_some.mpr ⟨(lives i).mpr live, nonzero, by rw [slots i k live, if_pos ⟨rfl, rfl⟩]⟩
  have elsewhere : ∀ place, place ≠ (i, k) → v'.own place = v.own place := by
    rintro ⟨j, l⟩ other
    have apart : ¬ (j = i ∧ l = k) := fun same => other (by rw [same.1, same.2])
    unfold own
    by_cases alive : v.Live j
    · simp only [lives j, slots j l alive, if_neg apart]
    · simp only [lives j, alive, false_and, if_false]
  have marked : ∀ c, v'.bit c = true ↔ c = b ∨ v.bit c = true := by
    intro c
    rw [bits]
    by_cases same : c = b
    · subst same
      simp
    · simp [same]
  refine ⟨?_, ?_, ?_⟩
  · rw [sb]
    exact owned.owns.attach (own_eq_none.mpr fun _ => empty)
      (mem_free.mp free).2 here elsewhere marked
  · intro place c owns
    rw [sb]
    by_cases same : place = (i, k)
    · subst same
      rw [here] at owns
      exact Option.some.inj owns ▸ owned.free_range free
    · rw [elsewhere place same] at owns
      exact owned.range owns
  · intro c below
    rw [sb] at below
    exact (marked c).mpr (.inr (owned.metaUsed c below))

end Owned

/-! ### Other fields of an inode -/

section Fields

variable {v : View} {i : Nat} {d : Dinode}

theorem slot_setDin (addrs : d.addrs = (v.din i).addrs) (j k : Nat) :
    (v.setDin i d).slot j k = v.slot j k := by
  have addr : ∀ l, d.addr l = (v.din i).addr l := by
    intro l
    unfold Dinode.addr
    rw [addrs]
  unfold slot
  by_cases same : j = i
  · subst same
    rw [din_setDin_self]
    unfold slotOf
    simp only [addr]
    rfl
  · rw [din_setDin_of_ne same]
    rfl

theorem live_setDin (type : d.type = 0 ↔ (v.din i).type = 0) (j : Nat) :
    (v.setDin i d).Live j ↔ v.Live j := by
  unfold Live
  by_cases same : j = i
  · subst same
    rw [din_setDin_self, ne_eq, type]
  · rw [din_setDin_of_ne same]

theorem own_setDin (addrs : d.addrs = (v.din i).addrs) (type : d.type = 0 ↔ (v.din i).type = 0) :
    (v.setDin i d).own = v.own := by
  funext place
  unfold own
  simp only [slot_setDin addrs, live_setDin type]

theorem Owned.setDin (owned : v.Owned) (addrs : d.addrs = (v.din i).addrs)
    (type : d.type = 0 ↔ (v.din i).type = 0) : (v.setDin i d).Owned := by
  have own := own_setDin addrs type
  exact ⟨by rw [own]; exact owned.owns, by rw [own]; exact owned.range, owned.metaUsed⟩

theorem Shaped.setDin {j c : Nat} (shaped : v.Shaped j c) (addrs : d.addrs = (v.din i).addrs) :
    (v.setDin i d).Shaped j c :=
  ⟨shaped.bound, fun k inside => by rw [slot_setDin addrs]; exact shaped.slots k inside⟩

end Fields

/-! ### Filling a slot -/

section Attach

variable {v : View} {i j k l b : Nat}

theorem slot_setDin_of_ne (other : j ≠ i) (v : View) (d : Dinode) (l : Nat) :
    (v.setDin i d).slot j l = v.slot j l := by
  unfold slot
  rw [din_setDin_of_ne other]
  rfl

theorem data_alloc_indirect (owned : v.Owned) (live : v.Live j) (free : b ∈ v.free)
    (some' : (v.din j).addr NDIRECT ≠ 0) :
    (v.alloc b).data ((v.din j).addr NDIRECT) = v.data ((v.din j).addr NDIRECT) :=
  data_setData_of_ne (owned.slot_ne_free (k := MAXFILE) live some' free) _ _

theorem slot_alloc (owned : v.Owned) (live : v.Live j) (free : b ∈ v.free) (l : Nat) :
    (v.alloc b).slot j l = v.slot j l :=
  slotOf_congr (fun some' => data_alloc_indirect owned live free some') l

/-- The slot that the address `k` of an inode is. -/
def addrSlot (k : Nat) : Nat := if k < NDIRECT then k else MAXFILE

theorem slotOf_attach_entry (owned : v.Owned) (live : v.Live i) (free : b ∈ v.free)
    (inside : k ≤ NDIRECT) (empty : v.slot i (addrSlot k) = 0) (from' : NDIRECT ≤ l)
    (below : l < MAXFILE) : (v.alloc b).slotOf ((v.din i).setAddr k b) l = v.slot i l := by
  have addr := Dinode.addr_setAddr (d := v.din i) inside (owned.free_lt free) NDIRECT
  by_cases direct : k < NDIRECT
  · rw [if_neg (by omega)] at addr
    by_cases none' : (v.din i).addr NDIRECT = 0
    · rw [slotOf_entry_none from' below (addr.trans none')]
      exact (slotOf_entry_none from' below none').symm
    · rw [slotOf_entry from' below (addr ▸ none'), addr, data_alloc_indirect owned live free none']
      exact (slotOf_entry from' below none').symm
  · -- The new indirect block is zeroed, so its entries read as no block.
    obtain rfl : k = NDIRECT := by omega
    rw [if_pos rfl] at addr
    have none' : (v.din i).addr NDIRECT = 0 := empty
    rw [slotOf_entry from' below (by rw [addr]; exact owned.free_ne_zero free), addr]
    unfold slot
    rw [slotOf_entry_none from' below none']
    show ((((v.setBit b true).setData b Block.zero).data b).word (l - NDIRECT)).toNat = 0
    rw [data_setData_self, Block.word_zero]
    · rfl
    · unfold MAXFILE at below
      omega

/-- What a new address of an inode changes of all slots. -/
theorem slot_attach_addr (owned : v.Owned) (liveHere : v.Live i) (live : v.Live j)
    (free : b ∈ v.free) (inside : k ≤ NDIRECT) (empty : v.slot i (addrSlot k) = 0) (l : Nat) :
    ((v.alloc b).setDin i ((v.din i).setAddr k b)).slot j l =
      if j = i ∧ l = addrSlot k then b else v.slot j l := by
  by_cases same : j = i
  · subst same
    have addr := Dinode.addr_setAddr (d := v.din j) inside (owned.free_lt free)
    show (v.alloc b).slotOf (((v.alloc b).setDin j _).din j) l = _
    rw [din_setDin_self]
    rcases lt_trichotomy l MAXFILE with below | at' | beyond
    · by_cases direct : l < NDIRECT
      · have slots : l = addrSlot k ↔ l = k := by
          unfold addrSlot
          rw [MAXFILE_eq, NDIRECT_eq] at *
          split <;> omega
        simp only [slotOf_direct direct, addr, slot, slots, true_and]
      · rw [slotOf_attach_entry owned live free inside empty (Nat.le_of_not_lt direct) below,
          if_neg]
        rintro ⟨_, at'⟩
        unfold addrSlot at at'
        split at at' <;> omega
    · subst at'
      have slots : MAXFILE = addrSlot k ↔ NDIRECT = k := by
        unfold addrSlot
        rw [MAXFILE_eq, NDIRECT_eq] at *
        split <;> omega
      simp only [slotOf_indirect, addr, slot, slots, true_and]
    · have outside : l ≠ addrSlot k := by
        unfold addrSlot
        rw [MAXFILE_eq, NDIRECT_eq] at *
        split <;> omega
      rw [if_neg fun both => outside both.2, slot, slotOf_beyond beyond, slotOf_beyond beyond]
  · rw [if_neg fun both => same both.1, slot_setDin_of_ne same, slot_alloc owned live free]

/-- The view after `a[k - NDIRECT] = balloc(ip->dev)` for the indirect block `bp`. -/
def attachEntry (v : View) (bp k b : Nat) : View :=
  (v.alloc b).setData bp ((v.data bp).setWord (k - NDIRECT) (UInt32.ofNat b))

/-- What a new entry of an indirect block changes of all slots. -/
theorem slot_attach_entry (owned : v.Owned) (liveHere : v.Live i) (live : v.Live j)
    (free : b ∈ v.free) (some' : v.slot i MAXFILE ≠ 0) (from' : NDIRECT ≤ k) (below : k < MAXFILE)
    (l : Nat) :
    (v.attachEntry (v.slot i MAXFILE) k b).slot j l =
      if j = i ∧ l = k then b else v.slot j l := by
  have entry : k - NDIRECT < NINDIRECT := by
    unfold MAXFILE at below
    omega
  by_cases same : j = i
  · subst same
    have indirect : (v.din j).addr NDIRECT = v.slot j MAXFILE := rfl
    by_cases inside : NDIRECT ≤ l ∧ l < MAXFILE
    · have old : v.slot j l = ((v.data (v.slot j MAXFILE)).word (l - NDIRECT)).toNat :=
        slotOf_entry inside.1 inside.2 some'
      show View.slotOf _ (v.din j) l = _
      rw [slotOf_entry inside.1 inside.2 some', indirect, old]
      unfold attachEntry
      rw [data_setData_self, Block.word_setWord entry]
      by_cases at' : l = k
      · rw [if_pos (by rw [at']), if_pos ⟨rfl, at'⟩, UInt32.toNat_ofNat',
          Nat.mod_eq_of_lt (owned.free_lt free)]
      · rw [if_neg (by omega), if_neg fun both => at' both.2]
    · rw [if_neg (by rintro ⟨_, rfl⟩; exact inside ⟨from', below⟩)]
      show View.slotOf _ (v.din j) l = View.slotOf v (v.din j) l
      rcases lt_trichotomy l MAXFILE with short | rfl | beyond
      · rw [slotOf_direct (by omega), slotOf_direct (by omega)]
      · rfl
      · rw [slotOf_beyond beyond, slotOf_beyond beyond]
  · rw [if_neg fun both => same both.1]
    show View.slotOf _ (v.din j) l = _
    refine slotOf_congr (fun some'' => ?_) l
    have apart : (v.din j).addr NDIRECT ≠ v.slot i MAXFILE := fun shared =>
      same (owned.slot_inj (k := MAXFILE) (l := MAXFILE) live liveHere some'' shared).1
    unfold attachEntry
    rw [data_setData_of_ne apart, data_alloc_indirect owned live free some'']

end Attach

end View

end Xv6
