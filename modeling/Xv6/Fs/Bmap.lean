/-
**`bmap`: the blocks of an inode grow by one at a time.**

The holder of a locked inode sees the file system through it: `Fs.viewOf s ip` is the view of the
disk with the inode in memory in place of the one on disk. `Edits v v' i c c' taken` says that inode
`i` went from `c` to `c'` blocks by taking the blocks `taken` from the front of the free list, and
that nothing else changed. `bmap` of block `bn ≤ c` is such an edit.
-/

import Xv6.Fs.Owned
import Xv6.Lib.Run

namespace Xv6

open Lib

/-- The number of blocks an inode takes to grow from `c` to `c'` blocks: those and, when it leaves
the direct blocks, the indirect block. -/
def growth (c c' : Nat) : Nat := (c' - c) + if c ≤ NDIRECT ∧ NDIRECT < c' then 1 else 0

theorem growth_self (c : Nat) : growth c c = 0 := by
  unfold growth
  rw [if_neg (by omega)]
  omega

/-- Growing in two steps takes as many blocks as growing at once. -/
theorem growth_add {c c' c'' : Nat} (first : c ≤ c') (second : c' ≤ c'') :
    growth c c'' = growth c c' + growth c' c'' := by
  unfold growth
  split <;> split <;> split <;> omega

theorem growth_pos {c c' : Nat} (larger : c < c') : 0 < growth c c' :=
  Nat.add_pos_left (Nat.sub_pos_of_lt larger) _

/-- The file system as the holder of the locked inode `ip` sees it. -/
def Fs.viewOf (s : Fs) (ip : Inode) : View := s.view.setDin ip.inum ip.din

namespace View

/-! ### One slot filled -/

/-- The empty slot `k` of inode `i` was given the first free block `b`; the bytes of all files are
as before. -/
structure Filled (v v' : View) (i k b : Nat) : Prop where
  nonzero : b ≠ 0
  sb : v'.sb = v.sb
  owned : v'.Owned
  free : v.free = b :: v'.free
  slots : ∀ j l, v.Live j → v'.slot j l = if j = i ∧ l = k then b else v.slot j l
  inode : v'.din i = { v.din i with addrs := (v'.din i).addrs }
  others : ∀ j, j ≠ i → v'.din j = v.din j
  data : ∀ j l, v.Live j → l < MAXFILE → v.slot j l ≠ 0 → v'.data (v.slot j l) = v.data (v.slot j l)

section Filled

variable {v v' : View} {i k b : Nat} {rest : List Nat}

theorem free_alloc (first : v.free = b :: rest) : v.free = b :: (v.alloc b).free := by
  rw [first]
  exact congrArg _ (free_setBit first).symm

/-- A new block put into an address of the inode fills that slot alone. -/
theorem Filled.addr (owned : v.Owned) (live : v.Live i) (first : v.free = b :: rest)
    (inside : k ≤ NDIRECT) (empty : v.slot i (addrSlot k) = 0) :
    Filled v ((v.alloc b).setDin i ((v.din i).setAddr k b)) i (addrSlot k) b := by
  have free : b ∈ v.free := first ▸ List.mem_cons_self
  have kept := (v.din i).setAddr_meta k b
  have slots := fun j l (alive : v.Live j) => slot_attach_addr owned live alive free inside empty l
  refine ⟨owned.free_ne_zero free, rfl, ?_, free_alloc first, slots, ?_, ?_, ?_⟩
  · exact owned.attach live free empty rfl rfl (fun j => live_setDin (by rw [kept.1]; rfl) j) slots
  · rw [din_setDin_self]
    exact Dinode.ext kept.1 kept.2.1 kept.2.2.1 kept.2.2.2.1 kept.2.2.2.2 rfl
  · intro j other
    exact din_setDin_of_ne other _ _
  · intro j l alive _ some'
    exact data_setData_of_ne (owned.slot_ne_free alive some' free) _ _

/-- A new block put into the indirect block fills that slot alone. -/
theorem Filled.entry (owned : v.Owned) (live : v.Live i) (first : v.free = b :: rest)
    (from' : NDIRECT ≤ k) (below : k < MAXFILE) (some' : v.slot i MAXFILE ≠ 0)
    (empty : v.slot i k = 0) : Filled v (v.attachEntry (v.slot i MAXFILE) k b) i k b := by
  have free : b ∈ v.free := first ▸ List.mem_cons_self
  have slots := fun j l (alive : v.Live j) =>
    slot_attach_entry owned live alive free some' from' below l
  refine ⟨owned.free_ne_zero free, rfl, ?_, free_alloc first, slots, rfl, fun _ _ => rfl, ?_⟩
  · exact owned.attach live free empty rfl rfl (fun j => Iff.rfl) slots
  · intro j l alive short owns
    have apart : v.slot j l ≠ v.slot i MAXFILE := fun shared =>
      absurd (owned.slot_inj alive live owns shared).2 short.ne
    unfold attachEntry
    rw [data_setData_of_ne apart]
    exact data_setData_of_ne (owned.slot_ne_free alive owns free) _ _

theorem Filled.live (filled : Filled v v' i k b) (j : Nat) : v'.Live j ↔ v.Live j := by
  unfold Live
  by_cases same : j = i
  · subst same
    rw [filled.inode]
  · rw [filled.others j same]

end Filled

/-! ### Edits of an inode -/

/-- Inode `i` went from `c` to `c'` blocks, taking `taken` from the free list, and possibly got
other bytes; the other inodes are as before. -/
structure Edits (v v' : View) (i c c' : Nat) (taken : List Nat) : Prop where
  le : c ≤ c'
  sb : v'.sb = v.sb
  owned : v'.Owned
  shaped : v'.Shaped i c'
  free : v.free = taken ++ v'.free
  count : taken.length = growth c c'
  inode : v'.din i = { v.din i with addrs := (v'.din i).addrs }
  others : ∀ j, j ≠ i → v'.din j = v.din j
  kept : ∀ k, v.slot i k ≠ 0 → v'.slot i k = v.slot i k
  fresh : ∀ k, v.slot i k = 0 → v'.slot i k ≠ 0 → v'.slot i k ∈ taken
  otherSlots : ∀ j, j ≠ i → v.Live j → ∀ k, v'.slot j k = v.slot j k
  otherData : ∀ j, j ≠ i → v.Live j → ∀ k, k < MAXFILE → v.slot j k ≠ 0 →
    v'.data (v.slot j k) = v.data (v.slot j k)

namespace Edits

variable {v m v' : View} {i c c' c'' : Nat} {first second : List Nat}

theorem live (edits : Edits v v' i c c' first) (j : Nat) : v'.Live j ↔ v.Live j := by
  unfold Live
  by_cases same : j = i
  · subst same
    rw [edits.inode]
  · rw [edits.others j same]

theorem refl (owned : v.Owned) (shaped : v.Shaped i c) : Edits v v i c c [] where
  le := le_rfl
  sb := rfl
  owned := owned
  shaped := shaped
  free := rfl
  count := (growth_self c).symm
  inode := rfl
  others _ _ := rfl
  kept _ _ := rfl
  fresh _ none' some' := (some' none').elim
  otherSlots _ _ _ _ := rfl
  otherData _ _ _ _ _ _ := rfl

/-- Edits of one inode compose. -/
theorem trans (one : Edits v m i c c' first) (two : Edits m v' i c' c'' second) :
    Edits v v' i c c'' (first ++ second) where
  le := one.le.trans two.le
  sb := two.sb.trans one.sb
  owned := two.owned
  shaped := two.shaped
  free := by rw [one.free, two.free, List.append_assoc]
  count := by rw [List.length_append, one.count, two.count, growth_add one.le two.le]
  inode := by
    rw [two.inode, one.inode]
  others j other := (two.others j other).trans (one.others j other)
  kept k some' := by
    have same := one.kept k some'
    rw [two.kept k (same ▸ some'), same]
  fresh k none' some' := by
    by_cases later : m.slot i k = 0
    · exact List.mem_append_right _ (two.fresh k later some')
    · rw [two.kept k later]
      exact List.mem_append_left _ (one.fresh k none' later)
  otherSlots j other alive k := by
    rw [two.otherSlots j other ((one.live j).mpr alive), one.otherSlots j other alive]
  otherData j other alive k short some' := by
    have same := one.otherSlots j other alive k
    have late := two.otherData j other ((one.live j).mpr alive) k short (same ▸ some')
    rw [same] at late
    rw [late, one.otherData j other alive k short some']

theorem slot_of_lt (edits : Edits v v' i c c' first) (shaped : v.Shaped i c) {k : Nat}
    (below : k < c) : v'.slot i k = v.slot i k :=
  edits.kept k ((shaped.slots k (below.le.trans shaped.bound)).mpr (.inl below))

theorem din_eq (edits : Edits v v' i c c' []) : v'.din i = v.din i := by
  have slots : ∀ k, v'.slot i k = v.slot i k := by
    intro k
    by_cases none' : v.slot i k = 0
    · by_contra changed
      exact List.not_mem_nil (edits.fresh k none' (none' ▸ changed))
    · exact edits.kept k none'
  have addr : ∀ k, k ≤ NDIRECT → (v'.din i).addr k = (v.din i).addr k := by
    intro k inside
    by_cases direct : k < NDIRECT
    · have := slots k
      unfold slot at this
      rwa [slotOf_direct direct, slotOf_direct direct] at this
    · obtain rfl : k = NDIRECT := by omega
      exact slots MAXFILE
  rw [edits.inode]
  refine Dinode.ext rfl rfl rfl rfl rfl ?_
  funext k
  have same := addr k (Nat.le_of_lt_succ k.isLt)
  unfold Dinode.addr at same
  rw [dif_pos k.isLt, dif_pos k.isLt] at same
  exact UInt32.toNat_inj.mp same

theorem of_filled {b : Nat} (filled : Filled v v' i c b) (live : v.Live i) (shaped : v.Shaped i c)
    (bound : c < MAXFILE) (other : c ≠ NDIRECT) : Edits v v' i c (c + 1) [b] where
  le := Nat.le_succ c
  sb := filled.sb
  owned := filled.owned
  shaped := ⟨bound, fun k inside => by
    rw [filled.slots i k live]
    by_cases new : k = c
    · rw [if_pos ⟨rfl, new⟩]
      simp [filled.nonzero, new]
    · rw [if_neg fun both => new both.2, shaped.slots k inside]
      omega⟩
  free := filled.free
  count := by
    unfold growth
    rw [if_neg (by omega)]
    simp
  inode := filled.inode
  others := filled.others
  kept k some' := by
    rw [filled.slots i k live, if_neg]
    rintro ⟨_, rfl⟩
    have := (shaped.slots k bound.le).mp some'
    omega
  fresh k none' some' := by
    rw [filled.slots i k live] at some' ⊢
    split
    · exact List.mem_singleton_self b
    · next apart =>
      rw [if_neg apart] at some'
      exact (some' none').elim
  otherSlots j apart alive k := by rw [filled.slots j k alive, if_neg fun both => apart both.1]
  otherData j _ alive k short some' := filled.data j k alive short some'

/-- The first block behind the direct ones takes two: the indirect block comes first. -/
theorem of_filled_indirect {h b : Nat} (one : Filled v m i MAXFILE h)
    (two : Filled m v' i NDIRECT b) (live : v.Live i) (shaped : v.Shaped i NDIRECT) :
    Edits v v' i NDIRECT (NDIRECT + 1) [h, b] where
  le := Nat.le_succ _
  sb := two.sb.trans one.sb
  owned := two.owned
  shaped := ⟨by decide, fun k inside => by
    rw [two.slots i k ((one.live i).mpr live), one.slots i k live]
    by_cases new : k = NDIRECT
    · rw [if_pos ⟨rfl, new⟩]
      simp [two.nonzero, new]
    · rw [if_neg fun both => new both.2]
      by_cases indirect : k = MAXFILE
      · rw [if_pos ⟨rfl, indirect⟩]
        simp [one.nonzero, indirect]
      · rw [if_neg fun both => indirect both.2, shaped.slots k inside]
        omega⟩
  free := by rw [one.free, two.free]; rfl
  count := rfl
  inode := by rw [two.inode, one.inode]
  others j other := (two.others j other).trans (one.others j other)
  kept k some' := by
    have old := (shaped.slots k ?_).mp some'
    · rw [two.slots i k ((one.live i).mpr live), one.slots i k live, if_neg, if_neg]
      · rintro ⟨_, rfl⟩
        rw [MAXFILE_eq, NDIRECT_eq] at old
        omega
      · rintro ⟨_, rfl⟩
        omega
    · by_contra beyond
      exact some' (slotOf_beyond (Nat.lt_of_not_le beyond))
  fresh k none' some' := by
    rw [two.slots i k ((one.live i).mpr live), one.slots i k live] at some' ⊢
    split
    · simp
    · next direct =>
      rw [if_neg direct] at some'
      split
      · simp
      · next indirect =>
        rw [if_neg indirect] at some'
        exact (some' none').elim
  otherSlots j apart alive k := by
    rw [two.slots j k ((one.live j).mpr alive), one.slots j k alive,
      if_neg fun both => apart both.1, if_neg fun both => apart both.1]
  otherData j apart alive k short some' := by
    have same : m.slot j k = v.slot j k := by
      rw [one.slots j k alive, if_neg fun both => apart both.1]
    have late := two.data j k ((one.live j).mpr alive) short (same ▸ some')
    rw [same] at late
    rw [late, one.data j k alive short some']

end Edits

end View

/-! ### The code -/

namespace Fs

theorem viewOf_setAddr {s s' : Fs} {ip : Inode} {k b : Nat} (after : s'.view = s.view.alloc b) :
    s'.viewOf (ip.setAddr k b) =
      ((s.viewOf ip).alloc b).setDin ip.inum (((s.viewOf ip).din ip.inum).setAddr k b) := by
  unfold viewOf
  rw [after, View.din_setDin_self]
  apply View.ext <;> try rfl
  exact (Function.update_idem ..).symm

/-- A locked inode, in a file system where it is allocated and has `c` blocks. -/
structure Holds (s : Fs) (ip : Inode) (c : Nat) : Prop where
  inside : ip.inum < s.readsb.ninodes.toNat
  owned : (s.viewOf ip).Owned
  live : (s.viewOf ip).Live ip.inum
  shaped : (s.viewOf ip).Shaped ip.inum c

/-- From `s` to `s'` the inode `ip` became `ip'`, with `c'` instead of `c` blocks, and `sectors`
were logged; no inode was written to the disk. -/
structure Grows (s s' : Fs) (ip ip' : Inode) (c c' : Nat) (taken sectors : List Nat) : Prop where
  inode : ip' = { ip with din := ip'.din }
  edits : (s.viewOf ip).Edits (s'.viewOf ip') ip.inum c c' taken
  disk : s'.view.din = s.view.din
  logs : Logs s s' sectors

/-- The sectors a growth from `c` to `c'` blocks logs, apart from the data. -/
def GrowthSector (s' : Fs) (ip' : Inode) (c c' : Nat) (taken : List Nat) (x : Nat) : Prop :=
  (∃ b ∈ taken, x = BBLOCK b s'.readsb.ninodes.toNat ∨ x = b) ∨
    c < c' ∧ NDIRECT < c' ∧ x = (s'.viewOf ip').slot ip'.inum MAXFILE

/-- `more` names the sectors that a growth from `c` to `c'` blocks is going to log. -/
structure Plans (s : Fs) (ip : Inode) (c c' : Nat) (more : Finset Nat) : Prop where
  blocks : ∀ b ∈ (s.viewOf ip).free.take (growth c c'),
    BBLOCK b s.readsb.ninodes.toNat ∈ more ∧ b ∈ more
  indirect : NDIRECT < c → c < c' → (s.viewOf ip).slot ip.inum MAXFILE ∈ more

/-- A growth from `c` to `c'` blocks fails for want of blocks or of room in the log. -/
def Stuck (s : Fs) (ip : Inode) (c c' : Nat) (more : Finset Nat) (panic : Panic) : Prop :=
  panic = .ballocOutOfBlocks ∧ (s.viewOf ip).free.length < growth c c' ∨ s.NoRoom more panic

section Existing

variable {s : Fs} {ip : Inode} {c bn : Nat}

theorem Holds.slot_range (holds : Holds s ip c) {k : Nat}
    (some' : (s.viewOf ip).slot ip.inum k ≠ 0) :
    s.view.sb.dataStart ≤ (s.viewOf ip).slot ip.inum k :=
  (holds.owned.slot_range holds.live some').1

theorem slot_viewOf_indirect (s : Fs) (ip : Inode) :
    (s.viewOf ip).slot ip.inum MAXFILE = ip.din.addr NDIRECT := by
  unfold View.slot viewOf
  rw [View.din_setDin_self, View.slotOf_indirect]

theorem slot_viewOf_direct (direct : bn < NDIRECT) :
    (s.viewOf ip).slot ip.inum bn = ip.din.addr bn := by
  unfold View.slot viewOf
  rw [View.din_setDin_self, View.slotOf_direct direct]

theorem Holds.slot_entry (holds : Holds s ip c) (from' : NDIRECT ≤ bn) (below : bn < MAXFILE)
    (some' : ip.din.addr NDIRECT ≠ 0) : (s.viewOf ip).slot ip.inum bn =
      ((s.blk (ip.din.addr NDIRECT)).word (bn - NDIRECT)).toNat := by
  have indirect := s.slot_viewOf_indirect ip
  have inside := holds.slot_range (indirect ▸ some')
  rw [indirect] at inside
  unfold View.slot viewOf
  rw [View.din_setDin_self, View.slotOf_entry from' below some', View.data_setDin,
    view_data_of_le inside]

/-- **`bmap` of a block that is there** returns its slot and changes nothing. -/
theorem Holds.bmap_existing (holds : Holds s ip c) (below : bn < c) :
    s.bmap ip bn = .ok ((s.viewOf ip).slot ip.inum bn, ip, s) := by
  have bound := below.trans_le holds.shaped.bound
  have some' := (holds.shaped.slots bn bound.le).mpr (.inl below)
  unfold bmap
  by_cases direct : bn < NDIRECT
  · rw [slot_viewOf_direct direct] at *
    rw [if_pos direct, if_neg some']
  · have indirect : ip.din.addr NDIRECT ≠ 0 := by
      rw [← s.slot_viewOf_indirect ip]
      exact (holds.shaped.slots MAXFILE le_rfl).mpr (.inr ⟨rfl, by omega⟩)
    have entry' := holds.slot_entry (Nat.le_of_not_lt direct) bound indirect
    have short : bn - NDIRECT < NINDIRECT := by
      unfold MAXFILE at bound
      omega
    rw [entry'] at some' ⊢
    unfold Fs.indirect entry
    rw [if_neg direct, if_pos short, if_neg indirect]
    simp only [Lib.ok_bind]
    rw [if_neg some']
    rfl

end Existing

/-! ### A new block -/

section New

variable {s : Fs} {ip : Inode} {c : Nat} {more : Finset Nat}

theorem attachAddr_meets {k : Nat} (more : Finset Nat) (owned : (s.viewOf ip).Owned)
    (live : (s.viewOf ip).Live ip.inum) (inside : k ≤ NDIRECT)
    (empty : (s.viewOf ip).slot ip.inum (View.addrSlot k) = 0) (named :
    ∀ b rest, s.view.free = b :: rest → BBLOCK b s.readsb.ninodes.toNat ∈ more ∧ b ∈ more) :
    Meets (do
        let (addr, s) ← s.balloc
        return (addr, ip.setAddr k addr, s))
      (fun (b, ip', s') => ip' = { ip with din := ip'.din } ∧
        (s.viewOf ip).Filled (s'.viewOf ip') ip.inum (View.addrSlot k) b ∧
        s'.view.din = s.view.din ∧ Logs s s' [BBLOCK b s.readsb.ninodes.toNat, b])
      (fun panic => panic = .ballocOutOfBlocks ∧ s.view.free = [] ∨ s.NoRoom more panic) := by
  refine (balloc_meets owned.metaUsed more named).bind ?_
  rintro ⟨b, s'⟩ ⟨⟨rest, first⟩, after, logged⟩
  refine ⟨rfl, ?_, by rw [after]; rfl, logged⟩
  rw [viewOf_setAddr after]
  exact View.Filled.addr owned live first inside empty

theorem attachEntry_meets {k bp : Nat} (more : Finset Nat) (owned : (s.viewOf ip).Owned)
    (live : (s.viewOf ip).Live ip.inum) (from' : NDIRECT ≤ k) (below : k < MAXFILE)
    (at' : (s.viewOf ip).slot ip.inum MAXFILE = bp) (some' : bp ≠ 0)
    (empty : (s.viewOf ip).slot ip.inum k = 0) (named :
    ∀ b rest, s.view.free = b :: rest → BBLOCK b s.readsb.ninodes.toNat ∈ more ∧ b ∈ more) :
    Meets (s.entry bp (k - NDIRECT))
      (fun (b, s') => (s.viewOf ip).Filled (s'.viewOf ip) ip.inum k b ∧
        s'.view.din = s.view.din ∧ Logs s s' [BBLOCK b s.readsb.ninodes.toNat, b, bp])
      (fun panic => panic = .ballocOutOfBlocks ∧ s.view.free = [] ∨ s.NoRoom more panic) := by
  subst at'
  have data := (owned.slot_range live some').1
  have clear : ((s.blk ((s.viewOf ip).slot ip.inum MAXFILE)).word (k - NDIRECT)).toNat = 0 := by
    have slot :=
      View.slotOf_entry (v := s.viewOf ip) (d := (s.viewOf ip).din ip.inum) from' below some'
    rw [← view_data_of_le data]
    exact slot.symm.trans empty
  unfold entry
  simp only [clear, if_true]
  refine (balloc_meets owned.metaUsed more named).bind ?_
  rintro ⟨b, m⟩ ⟨⟨rest, first⟩, after, logged⟩
  obtain ⟨mark, zero⟩ := named b rest first
  refine ((m.logWrite_meets _ _ more).mono (fun _ good => good)
    fun _ bad => .inr (logged.noRoom (by simp [mark, zero]) bad)).bind ?_
  rintro s' ⟨stored, logged'⟩
  have sb : m.readsb = s.readsb := congrArg View.sb after
  have apart : (s.viewOf ip).slot ip.inum MAXFILE ≠ b :=
    owned.slot_ne_free live some' (show b ∈ s.view.free from first ▸ List.mem_cons_self)
  have untouched : m.blk ((s.viewOf ip).slot ip.inum MAXFILE) =
      (s.viewOf ip).data ((s.viewOf ip).slot ip.inum MAXFILE) := by
    have inside : m.view.sb.dataStart ≤ (s.viewOf ip).slot ip.inum MAXFILE := by
      rw [after]
      exact data
    rw [← view_data_of_le inside, after]
    exact View.data_setData_of_ne apart _ _
  have written := view_setData (sb ▸ data) stored
  rw [untouched, after] at written
  refine ⟨?_, by rw [written]; rfl, logged.trans logged'⟩
  have final : s'.viewOf ip =
      (s.viewOf ip).attachEntry ((s.viewOf ip).slot ip.inum MAXFILE) k b := by
    show s'.view.setDin ip.inum ip.din = _
    rw [written]
    rfl
  show (s.viewOf ip).Filled (s'.viewOf ip) ip.inum k b
  rw [final]
  exact View.Filled.entry owned live first from' below some' empty

/-- What `bmap` of block `bn` returns: the slot of the block, after growing to `c'` blocks. -/
structure Mapped (s s' : Fs) (ip ip' : Inode) (c c' bn : Nat) (taken sectors : List Nat) (b : Nat) :
    Prop extends Grows s s' ip ip' c c' taken sectors where
  block : b = (s'.viewOf ip').slot ip.inum bn
  data : ∀ k, k < c → (s'.viewOf ip').data ((s.viewOf ip).slot ip.inum k) =
    (s.viewOf ip).data ((s.viewOf ip).slot ip.inum k)
  logged : ∀ x, x ∈ sectors ↔ s'.GrowthSector ip' c c' taken x

theorem Holds.slot_data (holds : Holds s ip c) {k : Nat} (below : k < c) :
    k < MAXFILE ∧ (s.viewOf ip).slot ip.inum k ≠ 0 :=
  ⟨below.trans_le holds.shaped.bound,
    (holds.shaped.slots k (below.le.trans holds.shaped.bound)).mpr (.inl below)⟩

theorem Holds.slot_new (holds : Holds s ip c) (bound : c < MAXFILE) :
    (s.viewOf ip).slot ip.inum c = 0 := by
  by_contra some'
  have := (holds.shaped.slots c bound.le).mp some'
  omega

/-- `bmap` of the next block, at a direct address. -/
theorem Plans.first {rest : List Nat} (plans : Plans s ip c (c + 1) more) {b : Nat}
    (first : s.view.free = b :: rest) : BBLOCK b s.readsb.ninodes.toNat ∈ more ∧ b ∈ more := by
  refine plans.blocks b ?_
  rw [show (s.viewOf ip).free = b :: rest from first,
    ← Nat.succ_pred_eq_of_pos (growth_pos (Nat.lt_succ_self c))]
  exact List.mem_cons_self

theorem Stuck.of_balloc {panic : Panic}
    (bad : panic = .ballocOutOfBlocks ∧ s.view.free = [] ∨ s.NoRoom more panic) :
    s.Stuck ip c (c + 1) more panic := by
  refine bad.imp_left fun ⟨is, none'⟩ => ⟨is, ?_⟩
  rw [show (s.viewOf ip).free = [] from none']
  exact growth_pos (Nat.lt_succ_self c)

theorem Holds.bmap_new_direct (holds : Holds s ip c) (direct : c < NDIRECT)
    (plans : Plans s ip c (c + 1) more) :
    Meets (s.bmap ip c)
      (fun (b, ip', s') => ∃ taken sectors, Mapped s s' ip ip' c (c + 1) c taken sectors b)
      (s.Stuck ip c (c + 1) more) := by
  have bound : c < MAXFILE := direct.trans (by decide)
  have empty := holds.slot_new bound
  have slot : View.addrSlot c = c := if_pos direct
  unfold bmap
  rw [if_pos direct, if_pos (slot_viewOf_direct direct ▸ empty)]
  refine (attachAddr_meets more holds.owned holds.live direct.le (slot.symm ▸ empty)
    fun _ _ => plans.first).mono ?_ fun _ => .of_balloc
  · rintro ⟨b, ip', s'⟩ ⟨inode, filled, disk, logs⟩
    rw [slot] at filled
    refine ⟨[b], _,
      ⟨inode, .of_filled filled holds.live holds.shaped bound direct.ne, disk, logs⟩, ?_, ?_, ?_⟩
    · rw [filled.slots _ _ holds.live, if_pos ⟨rfl, rfl⟩]
    · intro k below
      exact filled.data _ k holds.live (holds.slot_data below).1 (holds.slot_data below).2
    · intro x
      have sb : s'.readsb = s.readsb := filled.sb
      unfold GrowthSector
      rw [sb]
      simp only [List.mem_cons, List.not_mem_nil, or_false, exists_eq_left]
      constructor
      · exact .inl
      · rintro (member | ⟨_, beyond, _⟩)
        · exact member
        · omega

/-- `bmap` of the next block, in the indirect block. -/
theorem Holds.bmap_new_entry (holds : Holds s ip c) (behind : NDIRECT < c) (bound : c < MAXFILE)
    (plans : Plans s ip c (c + 1) more) :
    Meets (s.bmap ip c)
      (fun (b, ip', s') => ∃ taken sectors, Mapped s s' ip ip' c (c + 1) c taken sectors b)
      (s.Stuck ip c (c + 1) more) := by
  have empty := holds.slot_new bound
  have at' := s.slot_viewOf_indirect ip
  have indirect : ip.din.addr NDIRECT ≠ 0 := by
    rw [← at']
    exact (holds.shaped.slots MAXFILE le_rfl).mpr (.inr ⟨rfl, behind⟩)
  have short : c - NDIRECT < NINDIRECT := by
    unfold MAXFILE at bound
    omega
  unfold bmap Fs.indirect
  rw [if_neg (by omega), if_pos short, if_neg indirect]
  simp only [Lib.ok_bind]
  refine ((attachEntry_meets more holds.owned holds.live behind.le bound at' indirect empty
    fun _ _ => plans.first).mono (fun _ good => good) fun _ => .of_balloc).bind ?_
  · rintro ⟨b, s'⟩ ⟨filled, disk, logs⟩
    refine ⟨[b], _,
      ⟨rfl, .of_filled filled holds.live holds.shaped bound behind.ne', disk, logs⟩, ?_, ?_, ?_⟩
    · rw [filled.slots _ _ holds.live, if_pos ⟨rfl, rfl⟩]
    · intro k below
      exact filled.data _ k holds.live (holds.slot_data below).1 (holds.slot_data below).2
    · intro x
      have sb : s'.readsb = s.readsb := filled.sb
      unfold GrowthSector
      rw [sb, slot_viewOf_indirect]
      simp only [List.mem_cons, List.not_mem_nil, or_false, exists_eq_left]
      constructor
      · rintro (mark | zero | entry')
        · exact .inl (.inl mark)
        · exact .inl (.inr zero)
        · exact .inr ⟨Nat.lt_succ_self c, by omega, entry'⟩
      · rintro ((mark | zero) | ⟨_, _, entry'⟩)
        · exact .inl mark
        · exact .inr (.inl zero)
        · exact .inr (.inr entry')

/-- `bmap` of the first block that needs the indirect block. -/
theorem Holds.bmap_new_indirect (holds : Holds s ip NDIRECT)
    (plans : Plans s ip NDIRECT (NDIRECT + 1) more) :
    Meets (s.bmap ip NDIRECT)
      (fun (b, ip', s') =>
        ∃ taken sectors, Mapped s s' ip ip' NDIRECT (NDIRECT + 1) NDIRECT taken sectors b)
      (s.Stuck ip NDIRECT (NDIRECT + 1) more) := by
  have none' : (s.viewOf ip).slot ip.inum MAXFILE = 0 := by
    by_contra some'
    have := (holds.shaped.slots MAXFILE le_rfl).mp some'
    rw [MAXFILE_eq, NDIRECT_eq] at this
    omega
  have two : growth NDIRECT (NDIRECT + 1) = 2 := rfl
  unfold bmap Fs.indirect
  rw [if_neg (lt_irrefl _), if_pos (by decide), if_pos (s.slot_viewOf_indirect ip ▸ none')]
  refine ((attachAddr_meets more holds.owned holds.live le_rfl none' fun _ _ => plans.first).mono
    (fun _ good => good) fun _ => .of_balloc).bind ?_
  · rintro ⟨bp, ip', m⟩ ⟨inode, taken, disk, logs⟩
    have number : ip'.inum = ip.inum := by rw [inode]
    have live : (m.viewOf ip').Live ip'.inum := number ▸ (taken.live _).mpr holds.live
    have sb : m.readsb = s.readsb := taken.sb
    have at' : (m.viewOf ip').slot ip'.inum MAXFILE = bp := by
      rw [number, taken.slots _ _ holds.live]
      exact if_pos ⟨rfl, rfl⟩
    have empty : (m.viewOf ip').slot ip'.inum NDIRECT = 0 := by
      rw [number, taken.slots _ _ holds.live, if_neg fun both => absurd both.2 (by decide)]
      exact holds.slot_new (by decide)
    have named :
        ∀ b ∈ (s.viewOf ip).free.take 2, BBLOCK b s.readsb.ninodes.toNat ∈ more ∧ b ∈ more :=
      plans.blocks
    have first := named bp (by rw [taken.free]; exact List.mem_cons_self)
    refine ((attachEntry_meets more taken.owned live le_rfl (by decide) at' taken.nonzero
      empty ?_).mono
      (fun _ good => good) ?_).bind ?_
    · intro b rest next
      rw [sb]
      refine named b ?_
      rw [taken.free, show (m.viewOf ip').free = b :: rest from next]
      simp
    · rintro panic (⟨rfl, last⟩ | full)
      · refine .inl ⟨rfl, ?_⟩
        rw [two, taken.free, show (m.viewOf ip').free = [] from last]
        exact Nat.one_lt_two
      · refine .inr (logs.noRoom ?_ full)
        simp [first]
    · rintro ⟨b, s'⟩ ⟨filled, disk', logs'⟩
      rw [number] at filled
      refine ⟨[bp, b], _, ⟨inode, .of_filled_indirect taken filled holds.live holds.shaped,
        disk'.trans disk, logs.trans logs'⟩, ?_, ?_, ?_⟩
      · rw [filled.slots _ _ (number ▸ live), if_pos ⟨rfl, rfl⟩]
      · intro k below
        obtain ⟨short, some'⟩ := holds.slot_data below
        have same : (m.viewOf ip').slot ip.inum k = (s.viewOf ip).slot ip.inum k := by
          rw [taken.slots _ _ holds.live]
          exact if_neg fun both => short.ne both.2
        have late := filled.data _ k (number ▸ live) short (same ▸ some')
        rw [same] at late
        exact late.trans (taken.data _ k holds.live short some')
      · intro x
        have sb' : s'.readsb = s.readsb := filled.sb.trans taken.sb
        have final : (s'.viewOf ip').slot ip'.inum MAXFILE = bp := by
          rw [slot_viewOf_indirect, ← at', slot_viewOf_indirect]
        unfold GrowthSector
        rw [sb', sb, final]
        simp only [List.cons_append, List.nil_append, List.mem_cons, List.not_mem_nil, or_false,
          exists_eq_or_imp, exists_eq_left]
        have grown : NDIRECT < NDIRECT + 1 := Nat.lt_succ_self _
        simp only [grown, true_and]
        grind

/-- **`bmap`** of a block up to the next one: it is there, or becomes the inode's last block. -/
theorem Holds.bmap_meets {bn : Nat} (holds : Holds s ip c) (next : bn ≤ c) (bound : bn < MAXFILE)
    (plans : Plans s ip c (max c (bn + 1)) more) :
    Meets (s.bmap ip bn)
      (fun (b, ip', s') =>
        ∃ taken sectors, Mapped s s' ip ip' c (max c (bn + 1)) bn taken sectors b)
      (s.Stuck ip c (max c (bn + 1)) more) := by
  by_cases there : bn < c
  · rw [holds.bmap_existing there, max_eq_left there]
    refine ⟨[], [], ⟨rfl, .refl holds.owned holds.shaped, rfl, .refl s⟩, rfl, fun _ _ => rfl, ?_⟩
    intro x
    simp [GrowthSector]
  · obtain rfl : bn = c := by omega
    rw [max_eq_right (Nat.le_succ bn)] at *
    rcases lt_trichotomy bn NDIRECT with direct | rfl | behind
    · exact holds.bmap_new_direct direct plans
    · exact holds.bmap_new_indirect plans
    · exact holds.bmap_new_entry behind bound plans

end New

/-! ### Growing on -/

section Plans

variable {s s' : Fs} {ip ip' : Inode} {c c' c'' : Nat} {taken sectors : List Nat}
    {more : Finset Nat}

theorem Grows.inum (grows : Grows s s' ip ip' c c' taken sectors) : ip'.inum = ip.inum := by
  rw [grows.inode]

theorem Grows.readsb (grows : Grows s s' ip ip' c c' taken sectors) : s'.readsb = s.readsb :=
  grows.edits.sb

theorem Grows.holds (grows : Grows s s' ip ip' c c' taken sectors) (holds : Holds s ip c) :
    Holds s' ip' c' where
  inside := by
    rw [grows.inum, grows.readsb]
    exact holds.inside
  owned := grows.edits.owned
  live := by
    rw [grows.inum]
    exact (grows.edits.live _).mpr holds.live
  shaped := by
    rw [grows.inum]
    exact grows.edits.shaped

theorem Grows.trans {m : Fs} {ip₁ : Inode} {taken' sectors' : List Nat}
    (one : Grows s m ip ip₁ c c' taken sectors) (two : Grows m s' ip₁ ip' c' c'' taken' sectors') :
    Grows s s' ip ip' c c'' (taken ++ taken') (sectors ++ sectors') where
  inode := by
    rw [two.inode, one.inode]
  edits := one.edits.trans (one.inum ▸ two.edits)
  disk := two.disk.trans one.disk
  logs := one.logs.trans two.logs

theorem Plans.mem_taken (plans : Plans s ip c c'' more)
    (grows : Grows s s' ip ip' c c' taken sectors) (le : c' ≤ c'') {b : Nat} (member : b ∈ taken) :
    BBLOCK b s.readsb.ninodes.toNat ∈ more ∧ b ∈ more := by
  refine plans.blocks b ?_
  have total := growth_add grows.edits.le le
  rw [grows.edits.free, List.take_append, grows.edits.count]
  refine List.mem_append_left _ ?_
  rw [List.take_of_length_le (by rw [grows.edits.count]; omega)]
  exact member

theorem Plans.mem_indirect (plans : Plans s ip c c'' more)
    (grows : Grows s s' ip ip' c c' taken sectors) (le : c' ≤ c'') (more' : c < c'')
    (holds : Holds s ip c) (behind : NDIRECT < c') :
    (s'.viewOf ip').slot ip.inum MAXFILE ∈ more := by
  have some' := (grows.edits.shaped.slots MAXFILE le_rfl).mpr (.inr ⟨rfl, behind⟩)
  by_cases old : (s.viewOf ip).slot ip.inum MAXFILE = 0
  · exact (plans.mem_taken grows le (grows.edits.fresh MAXFILE old some')).2
  · rw [grows.edits.kept MAXFILE old]
    refine plans.indirect ?_ more'
    rcases (holds.shaped.slots MAXFILE le_rfl).mp old with below | ⟨_, behind'⟩
    · have := holds.shaped.bound
      omega
    · exact behind'

theorem Plans.mem_sector (plans : Plans s ip c c'' more)
    (grows : Grows s s' ip ip' c c' taken sectors) (le : c' ≤ c'') (holds : Holds s ip c) {x : Nat}
    (sector : s'.GrowthSector ip' c c' taken x) : x ∈ more := by
  rcases sector with ⟨b, member, rfl | rfl⟩ | ⟨larger, behind, rfl⟩
  · rw [grows.readsb]
    exact (plans.mem_taken grows le member).1
  · exact (plans.mem_taken grows le member).2
  · rw [grows.inum]
    exact plans.mem_indirect grows le (larger.trans_le le) holds behind

/-- What was planned for a growth covers what is left of it. -/
theorem Plans.after (plans : Plans s ip c c'' more) (grows : Grows s s' ip ip' c c' taken sectors)
    (le : c' ≤ c'') (holds : Holds s ip c) : Plans s' ip' c' c'' more where
  blocks b member := by
    rw [grows.readsb]
    refine plans.blocks b ?_
    rw [grows.edits.free, List.take_append, grows.edits.count, growth_add grows.edits.le le,
      Nat.add_sub_cancel_left]
    exact List.mem_append_right _ member
  indirect behind larger := by
    rw [grows.inum]
    exact plans.mem_indirect grows le (grows.edits.le.trans_lt larger) holds behind

theorem Grows.stuck (grows : Grows s s' ip ip' c c' taken sectors) (le : c' ≤ c'')
    (named : ∀ x ∈ sectors, x ∈ more) {panic : Panic} (stuck : s'.Stuck ip' c' c'' more panic) :
    s.Stuck ip c c'' more panic := by
  rcases stuck with ⟨rfl, few⟩ | full
  · refine .inl ⟨rfl, ?_⟩
    rw [grows.edits.free, List.length_append, grows.edits.count, growth_add grows.edits.le le]
    omega
  · exact .inr (grows.logs.noRoom named full)

theorem Stuck.mono {panic : Panic} (stuck : s.Stuck ip c c' more panic) (first : c ≤ c')
    (le : c' ≤ c'') : s.Stuck ip c c'' more panic := by
  rcases stuck with ⟨rfl, few⟩ | full
  · refine .inl ⟨rfl, ?_⟩
    rw [growth_add first le]
    omega
  · exact .inr full

theorem Plans.mono (plans : Plans s ip c c'' more) (first : c ≤ c') (le : c' ≤ c'') :
    Plans s ip c c' more where
  blocks b member := by
    refine plans.blocks b (List.take_subset_take_left _ ?_ member)
    rw [growth_add first le]
    omega
  indirect behind larger := plans.indirect behind (larger.trans_le le)

theorem GrowthSector.trans {m : Fs} {ip₁ : Inode} {taken' sectors' : List Nat}
    (one : Grows s m ip ip₁ c c' taken sectors) (two : Grows m s' ip₁ ip' c' c'' taken' sectors')
    (x : Nat) :
    s'.GrowthSector ip' c c'' (taken ++ taken') x ↔
      m.GrowthSector ip₁ c c' taken x ∨ s'.GrowthSector ip' c' c'' taken' x := by
  have first := one.edits.le
  have second := two.edits.le
  have sb := two.readsb
  have same :
      NDIRECT < c' →
      (s'.viewOf ip').slot ip'.inum MAXFILE = (m.viewOf ip₁).slot ip₁.inum MAXFILE := by
    intro behind
    rw [two.inum]
    exact two.edits.kept MAXFILE (one.inum ▸ (one.edits.shaped.slots MAXFILE le_rfl).mpr
      (.inr ⟨rfl, behind⟩))
  unfold GrowthSector
  rw [sb]
  constructor
  · rintro (⟨b, member, at'⟩ | ⟨larger, behind, rfl⟩)
    · rcases List.mem_append.mp member with early | late
      · exact .inl (.inl ⟨b, early, at'⟩)
      · exact .inr (.inl ⟨b, late, at'⟩)
    · by_cases last : c' < c''
      · exact .inr (.inr ⟨last, behind, rfl⟩)
      · have behind' : NDIRECT < c' := by omega
        exact .inl (.inr ⟨by omega, behind', same behind'⟩)
  · rintro ((⟨b, member, at'⟩ | ⟨larger, behind, rfl⟩) | (⟨b, member, at'⟩ | ⟨larger, behind, rfl⟩))
    · exact .inl ⟨b, List.mem_append_left _ member, at'⟩
    · exact .inr ⟨by omega, by omega, (same behind).symm⟩
    · exact .inl ⟨b, List.mem_append_right _ member, at'⟩
    · exact .inr ⟨by omega, behind, rfl⟩

end Plans

end Fs

end Xv6
