/-
**`iappend` grows one inode of the image.**

While `mkfs` runs the bitmap is not written yet; what it counts as used is every block below
`freeblock`. `Img.marked` is the view of the image with those blocks marked, and in it `iappend` is
an edit of one inode as `bmap` and `writei` are in the kernel (`View.Edits`), so that the ownership
of blocks is exact all along.
-/

import Xv6.Fs.Content
import Xv6.Mkfs.Basic

namespace Xv6.Mkfs

open Lib Function

namespace Img

/-- The file system of the image with nothing logged; `Finished.initlog` says when the kernel finds
just this after `initlog`. -/
def boot (img : Img) : Fs where
  blk := img.blk
  log := Log.init size nlog
  devsw _ := ⟨none, none⟩
  wrote := []

/-- The view of the image with the blocks below `freeblock` marked. -/
def marked (img : Img) : View :=
  { img.boot.view with bit := fun b => decide (b < img.freeblock ∨ size ≤ b) }

/-- The image holds the super block, and blocks from `freeblock` on were never written. -/
structure Ok (img : Img) : Prop where
  sb : img.boot.readsb = Mkfs.sb
  sectors : img.sectors = size
  used : img.usedblocks = img.freeblock
  low : metablocks ≤ img.freeblock
  high : img.freeblock ≤ size
  clean : ∀ b, img.freeblock ≤ b → img.blk b = Block.zero

theorem size_sb : sb.size.toNat = size := rfl

theorem ninodes_sb : sb.ninodes.toNat = ninodes := rfl

theorem dataStart_sb : sb.dataStart = metablocks := rfl

section Changes

variable {img : Img}

theorem Ok.sb_marked (ok : img.Ok) : img.marked.sb = Mkfs.sb := ok.sb

theorem Ok.rsect_eq (ok : img.Ok) {sec : Nat} (inside : sec < size) :
    img.rsect sec = .ok (img.blk sec) := by
  unfold rsect
  rw [ok.sectors, if_pos inside]

theorem Ok.free_marked (ok : img.Ok) (room : img.freeblock < size) :
    ∃ rest, img.marked.free = img.freeblock :: rest := by
  apply List.head?_eq_some_iff.mp
  unfold View.free
  rw [ok.sb_marked, size_sb, List.head?_filter, List.find?_range_eq_some]
  refine ⟨?_, List.mem_range.mpr room, ?_⟩
  · simp [marked, room]
  · intro b below
    simp [marked, below]

theorem Ok.marked_take (ok : img.Ok) :
    img.take.marked = img.marked.alloc img.freeblock := by
  apply View.ext
  · rfl
  · funext b
    show decide (b < img.freeblock + 1 ∨ size ≤ b) =
      update (fun b => decide (b < img.freeblock ∨ size ≤ b)) img.freeblock true b
    by_cases same : b = img.freeblock
    · rw [same, update_self, decide_eq_true_eq]
      exact .inl (Nat.lt_succ_self _)
    · rw [update_of_ne same, decide_eq_decide]
      omega
  · rfl
  · funext b
    by_cases same : b = img.freeblock
    · subst same
      rw [View.alloc, View.data_setData_self]
      have inside : img.boot.view.sb.dataStart ≤ img.freeblock := by
        show img.boot.readsb.dataStart ≤ _
        rw [ok.sb]
        exact ok.low
      exact (Fs.view_data_of_le inside).trans (ok.clean _ le_rfl)
    · rw [View.alloc, View.data_setData_of_ne same]
      rfl

theorem Ok.take (ok : img.Ok) (room : img.freeblock < size) : img.take.Ok where
  sb := ok.sb
  sectors := ok.sectors
  used := congrArg (· + 1) ok.used
  low := ok.low.trans (Nat.le_succ _)
  high := room
  clean b above := ok.clean b ((Nat.le_succ _).trans above)

theorem Ok.marked_wsect (ok : img.Ok) {b : Nat} {buf : Block} (data : metablocks ≤ b) :
    (img.wsect b buf).marked = img.marked.setData b buf := by
  have inside : img.boot.readsb.dataStart ≤ b := by
    rw [ok.sb]
    exact data
  have view : (img.wsect b buf).boot.view = img.boot.view.setData b buf :=
    Fs.view_setData inside rfl
  unfold marked
  rw [view]
  rfl

theorem Ok.wsect (ok : img.Ok) {b : Nat} (buf : Block) (other : 1 < b) (below : b < img.freeblock) :
    (img.wsect b buf).Ok where
  sb := (Fs.readsb_update (s := img.boot) rfl other).trans ok.sb
  sectors := by
    show max img.sectors (b + 1) = size
    rw [ok.sectors]
    have := ok.high
    omega
  used := ok.used
  low := ok.low
  high := ok.high
  clean x above := by
    have apart : x ≠ b := by
      rintro rfl
      exact absurd above (Nat.not_le.mpr below)
    exact (update_of_ne apart _ _).trans (ok.clean x above)

theorem i2b_lt {i : Nat} (inside : i < ninodes) : 1 < i2b i ∧ i2b i < metablocks := by
  unfold i2b
  rw [IPB_eq]
  rw [show metablocks = 29 from rfl]
  unfold ninodes at inside
  omega

theorem Ok.winode_eq (ok : img.Ok) {i : Nat} (inside : i < ninodes) (d : Dinode) :
    ∃ img', img.winode i d = .ok img' ∧ img'.Ok ∧ img'.marked = img.marked.setDin i d ∧
      img'.freeblock = img.freeblock ∧ img'.freeinode = img.freeinode := by
  obtain ⟨low, high⟩ := i2b_lt inside
  have below := high.trans_le ok.low
  refine ⟨_, ?_, ok.wsect (Dinode.store (img.blk (i2b i)) (i % IPB) d) low below, ?_, rfl, rfl⟩
  · unfold winode
    rw [ok.rsect_eq (below.trans_le ok.high)]
    rfl
  · have table : i < img.boot.readsb.ninodes.toNat := by
      rw [ok.sb]
      exact inside
    have view : (img.wsect (i2b i) (Dinode.store (img.blk (i2b i)) (i % IPB) d)).boot.view =
        img.boot.view.setDin i d := Fs.view_putDinode table rfl
    unfold marked
    rw [view]
    rfl

theorem Ok.rinode_eq (ok : img.Ok) {i : Nat} (inside : i < ninodes) :
    img.rinode i = .ok (img.marked.din i) := by
  obtain ⟨low, high⟩ := i2b_lt inside
  have table : i < img.boot.view.sb.ninodes.toNat := by
    show i < img.boot.readsb.ninodes.toNat
    rw [ok.sb]
    exact inside
  unfold rinode
  rw [ok.rsect_eq (high.trans_le (ok.low.trans ok.high))]
  exact congrArg Except.ok (Fs.view_din_of_lt table).symm

end Changes

/-! ### Growing an inode -/

/-- The view of the image for `iappend`, which holds the inode `din` of number `i` in memory. -/
def viewOf (img : Img) (i : Nat) (din : Dinode) : View := img.marked.setDin i din

/-- `iappend` holds an inode of an image with exact ownership. -/
structure Sees (img : Img) (i : Nat) (din : Dinode) : Prop where
  ok : img.Ok
  inside : i < ninodes
  owned : (img.viewOf i din).Owned
  live : din.type ≠ 0

/-- `iappend` holds an inode with `c` blocks. -/
structure Holds (img : Img) (i : Nat) (din : Dinode) (c : Nat) : Prop extends Sees img i din where
  shaped : (img.viewOf i din).Shaped i c

/-- From `img` to `img'` the inode grew from `c` to `c'` blocks. -/
structure Grows (img img' : Img) (i : Nat) (din din' : Dinode) (c c' : Nat) (taken : List Nat) :
    Prop where
  ok : img'.Ok
  edits : (img.viewOf i din).Edits (img'.viewOf i din') i c c' taken
  disk : img'.marked.din = img.marked.din
  count : img'.freeblock = img.freeblock + growth c c'
  inodes : img'.freeinode = img.freeinode

section Grow

variable {img img' : Img} {i : Nat} {din din' : Dinode} {c c' : Nat} {taken : List Nat}

theorem Sees.live_view (holds : Sees img i din) : (img.viewOf i din).Live i := by
  unfold View.Live viewOf
  rw [View.din_setDin_self]
  exact holds.live

theorem din_viewOf (img : Img) (i : Nat) (din : Dinode) : (img.viewOf i din).din i = din :=
  View.din_setDin_self ..

theorem Grows.fields (grows : Grows img img' i din din' c c' taken) :
    din' = { din with addrs := din'.addrs } := by
  have same := grows.edits.inode
  rw [din_viewOf, din_viewOf] at same
  exact same

theorem Grows.holds (grows : Grows img img' i din din' c c' taken) (holds : Holds img i din c) :
    Holds img' i din' c' where
  ok := grows.ok
  inside := holds.inside
  owned := grows.edits.owned
  live := by
    rw [grows.fields]
    exact holds.live
  shaped := grows.edits.shaped

theorem Grows.trans {img₁ : Img} {din₁ : Dinode} {c₁ : Nat} {taken' : List Nat}
    (one : Grows img img₁ i din din₁ c c₁ taken) (two : Grows img₁ img' i din₁ din' c₁ c' taken') :
    Grows img img' i din din' c c' (taken ++ taken') where
  ok := two.ok
  edits := one.edits.trans two.edits
  disk := two.disk.trans one.disk
  count := by rw [two.count, one.count, Nat.add_assoc, growth_add one.edits.le two.edits.le]
  inodes := two.inodes.trans one.inodes

theorem slot_viewOf_direct {k : Nat} (direct : k < NDIRECT) :
    (img.viewOf i din).slot i k = din.addr k := by
  unfold View.slot
  rw [din_viewOf, View.slotOf_direct direct]

theorem slot_viewOf_indirect : (img.viewOf i din).slot i MAXFILE = din.addr NDIRECT := by
  unfold View.slot
  rw [din_viewOf, View.slotOf_indirect]

theorem Holds.slot_data (holds : Holds img i din c) {k : Nat} (below : k < c) :
    k < MAXFILE ∧ (img.viewOf i din).slot i k ≠ 0 :=
  ⟨below.trans_le holds.shaped.bound,
    (holds.shaped.slots k (below.le.trans holds.shaped.bound)).mpr (.inl below)⟩

theorem Sees.slot_block (holds : Sees img i din) {k : Nat}
    (some' : (img.viewOf i din).slot i k ≠ 0) :
    metablocks ≤ (img.viewOf i din).slot i k ∧ (img.viewOf i din).slot i k < img.freeblock ∧
      img.blk ((img.viewOf i din).slot i k) =
        (img.viewOf i din).data ((img.viewOf i din).slot i k) := by
  have range := holds.owned.slot_range holds.live_view some'
  have used := holds.owned.slot_used holds.live_view some'
  have sb : (img.viewOf i din).sb = Mkfs.sb := holds.ok.sb
  rw [sb, size_sb, dataStart_sb] at range
  have mark : (img.viewOf i din).slot i k < img.freeblock ∨ size ≤ (img.viewOf i din).slot i k :=
    of_decide_eq_true used
  refine ⟨range.1, by omega, ?_⟩
  have inside : img.boot.view.sb.dataStart ≤ (img.viewOf i din).slot i k := by
    show img.boot.readsb.dataStart ≤ _
    rw [holds.ok.sb]
    exact range.1
  exact (Fs.view_data_of_le inside).symm

theorem Sees.slot_entry (holds : Sees img i din) {k : Nat} (from' : NDIRECT ≤ k)
    (below : k < MAXFILE) (some' : din.addr NDIRECT ≠ 0) :
    (img.viewOf i din).slot i k = ((img.blk (din.addr NDIRECT)).word (k - NDIRECT)).toNat := by
  have block := holds.slot_block (k := MAXFILE) (by rw [slot_viewOf_indirect]; exact some')
  rw [slot_viewOf_indirect] at block
  rw [block.2.2]
  unfold View.slot
  rw [din_viewOf, View.slotOf_entry from' below some']

theorem Sees.filled_addr (holds : Sees img i din) {k : Nat} (room : img.freeblock < size)
    (inside : k ≤ NDIRECT) (empty : (img.viewOf i din).slot i (View.addrSlot k) = 0) :
    (img.viewOf i din).Filled (img.take.viewOf i (din.setAddr k img.freeblock)) i (View.addrSlot k)
      img.freeblock := by
  obtain ⟨rest, first⟩ := holds.ok.free_marked room
  have filled := View.Filled.addr holds.owned holds.live_view first inside empty
  rw [din_viewOf] at filled
  have after : img.take.viewOf i (din.setAddr k img.freeblock) =
      ((img.viewOf i din).alloc img.freeblock).setDin i (din.setAddr k img.freeblock) := by
    unfold viewOf
    rw [holds.ok.marked_take]
    exact (View.setDin_setDin ..).symm
  rw [after]
  exact filled

/-- The image after the next block was entered into the indirect block. -/
def withEntry (img : Img) (din : Dinode) (k : Nat) : Img :=
  img.take.wsect (din.addr NDIRECT) ((img.blk (din.addr NDIRECT)).setWord (k - NDIRECT)
    (UInt32.ofNat img.freeblock))

theorem Sees.appendEntry_eq (sees : Sees img i din) {k : Nat} (from' : NDIRECT ≤ k)
    (below : k < MAXFILE) (some' : din.addr NDIRECT ≠ 0) (empty : (img.viewOf i din).slot i k = 0) :
    img.appendEntry din (k - NDIRECT) = .ok (img.freeblock, img.withEntry din k) := by
  have at' : (img.viewOf i din).slot i MAXFILE = din.addr NDIRECT := slot_viewOf_indirect
  obtain ⟨_, handed, _⟩ := sees.slot_block (k := MAXFILE) (by rw [at']; exact some')
  rw [at'] at handed
  have entry : k - NDIRECT < NINDIRECT := by
    unfold MAXFILE at below
    omega
  have clear : (img.blk (din.addr NDIRECT)).word (k - NDIRECT) = 0 := by
    rw [sees.slot_entry from' below some'] at empty
    exact UInt32.toNat_inj.mp empty
  have word : img.freeblock < 2 ^ 32 := sees.ok.high.trans_lt (by decide)
  unfold appendEntry
  rw [sees.ok.rsect_eq (handed.trans_le sees.ok.high)]
  simp only [Lib.ok_bind]
  rw [if_pos clear, Block.word_setWord_self entry, UInt32.toNat_ofNat', Nat.mod_eq_of_lt word]
  rfl

theorem Sees.filled_entry (sees : Sees img i din) {k : Nat} (room : img.freeblock < size)
    (from' : NDIRECT ≤ k) (below : k < MAXFILE) (some' : din.addr NDIRECT ≠ 0)
    (empty : (img.viewOf i din).slot i k = 0) :
    (img.withEntry din k).Ok ∧
      (img.viewOf i din).Filled ((img.withEntry din k).viewOf i din) i k img.freeblock ∧
      (img.withEntry din k).marked.din = img.marked.din := by
  have at' : (img.viewOf i din).slot i MAXFILE = din.addr NDIRECT := slot_viewOf_indirect
  obtain ⟨data, handed, bytes⟩ := sees.slot_block (k := MAXFILE) (by rw [at']; exact some')
  obtain ⟨rest, first⟩ := sees.ok.free_marked room
  rw [at'] at data handed bytes
  have grown := sees.ok.take room
  refine ⟨?_, ?_, ?_⟩
  · exact grown.wsect _ (Nat.lt_of_lt_of_le (by decide) data) (handed.trans (Nat.lt_succ_self _))
  · have filled := View.Filled.entry sees.owned sees.live_view first from' below
      (by rw [at']; exact some') empty
    have after : (img.withEntry din k).viewOf i din =
        (img.viewOf i din).attachEntry ((img.viewOf i din).slot i MAXFILE) k img.freeblock := by
      unfold viewOf withEntry
      rw [grown.marked_wsect data, sees.ok.marked_take]
      unfold View.attachEntry
      rw [show (img.marked.setDin i din).slot i MAXFILE = din.addr NDIRECT from at',
        show (img.marked.setDin i din).data (din.addr NDIRECT) = img.blk (din.addr NDIRECT) from
          bytes.symm]
      rfl
    rw [after]
    exact filled
  · unfold withEntry
    rw [grown.marked_wsect data]
    rfl

/-- What `appendMap` of block `bn` returns. -/
structure Mapped (img img' : Img) (i : Nat) (din din' : Dinode) (c c' bn : Nat) (taken : List Nat)
    (x : Nat) : Prop extends Grows img img' i din din' c c' taken where
  block : x = (img'.viewOf i din').slot i bn
  data : ∀ k, k < c → (img'.viewOf i din').data ((img.viewOf i din).slot i k) =
    (img.viewOf i din).data ((img.viewOf i din).slot i k)

theorem Holds.appendMap_existing (holds : Holds img i din c) {bn : Nat} (below : bn < c) :
    img.appendMap din bn = .ok ((img.viewOf i din).slot i bn, din, img) := by
  obtain ⟨bound, some'⟩ := holds.slot_data below
  unfold appendMap appendAddr
  by_cases direct : bn < NDIRECT
  · rw [slot_viewOf_direct direct] at some' ⊢
    rw [if_pos direct, if_neg some']
  · have indirect : din.addr NDIRECT ≠ 0 := by
      have at' : (img.viewOf i din).slot i MAXFILE = din.addr NDIRECT := slot_viewOf_indirect
      rw [← at']
      exact (holds.shaped.slots MAXFILE le_rfl).mpr (.inr ⟨rfl, by omega⟩)
    have block := holds.slot_block (k := MAXFILE) (by rw [slot_viewOf_indirect]; exact indirect)
    rw [slot_viewOf_indirect] at block
    rw [holds.slot_entry (Nat.le_of_not_lt direct) bound indirect] at some' ⊢
    rw [if_neg direct, if_neg indirect]
    unfold appendEntry
    simp only
    rw [holds.ok.rsect_eq (block.2.1.trans_le holds.ok.high)]
    simp only [Lib.ok_bind]
    rw [if_neg fun zero => some' (by rw [zero]; rfl)]
    rfl

/-- Where the image is full, the block that `appendMap` returns cannot be read. -/
def Full (img : Img) (din : Dinode) (bn : Nat) : Prop :=
  img.appendMap din bn = .error .read ∨
    ∃ x din' img', img.appendMap din bn = .ok (x, din', img') ∧ img'.rsect x = .error .read

theorem Holds.slot_new (holds : Holds img i din c) (bound : c < MAXFILE) :
    (img.viewOf i din).slot i c = 0 := by
  by_contra some'
  have := (holds.shaped.slots c bound.le).mp some'
  omega

theorem Holds.appendMap_direct (holds : Holds img i din c) (direct : c < NDIRECT) :
    img.freeblock < size ∧ (∃ x din' img' taken, img.appendMap din c = .ok (x, din', img') ∧
        Mapped img img' i din din' c (c + 1) c taken x) ∨
      img.freeblock = size ∧ img.Full din c := by
  have bound : c < MAXFILE := direct.trans (by decide)
  have empty := holds.slot_new bound
  have slot : View.addrSlot c = c := if_pos direct
  have word : img.freeblock < 2 ^ 32 := holds.ok.high.trans_lt (by decide)
  have result : img.appendMap din c =
      .ok (img.freeblock, din.setAddr c img.freeblock, img.take) := by
    unfold appendMap appendAddr
    rw [if_pos direct, if_pos (slot_viewOf_direct direct ▸ empty)]
    simp only
    rw [Dinode.addr_setAddr direct.le word, if_pos rfl]
  rcases holds.ok.high.lt_or_eq with room | full
  · have filled := holds.filled_addr room direct.le (slot.symm ▸ empty)
    rw [slot] at filled
    refine .inl ⟨room, _, _, _, [img.freeblock], result,
      ⟨holds.ok.take room, .of_filled filled holds.live_view holds.shaped bound direct.ne,
      rfl, ?_, rfl⟩, ?_, ?_⟩
    · unfold growth
      rw [if_neg (by omega)]
      show img.freeblock + 1 = _
      omega
    · rw [filled.slots _ _ holds.live_view, if_pos ⟨rfl, rfl⟩]
    · intro k below
      exact filled.data _ k holds.live_view (holds.slot_data below).1 (holds.slot_data below).2
  · refine .inr ⟨full, .inr ⟨_, _, _, result, ?_⟩⟩
    unfold rsect
    rw [if_neg]
    rw [full]
    exact Nat.not_lt.mpr holds.ok.sectors.le

theorem Sees.full_entry (sees : Sees img i din) {k : Nat} (full : img.freeblock = size)
    (some' : din.addr NDIRECT ≠ 0) : (img.withEntry din k).rsect size = .error .read := by
  have at' : (img.viewOf i din).slot i MAXFILE = din.addr NDIRECT := slot_viewOf_indirect
  obtain ⟨_, handed, _⟩ := sees.slot_block (k := MAXFILE) (by rw [at']; exact some')
  rw [at', full] at handed
  unfold rsect
  rw [if_neg]
  show ¬ size < max img.sectors (din.addr NDIRECT + 1)
  rw [sees.ok.sectors]
  omega

theorem Holds.appendMap_entry (holds : Holds img i din c) (behind : NDIRECT < c)
    (bound : c < MAXFILE) :
    img.freeblock < size ∧ (∃ x din' img' taken, img.appendMap din c = .ok (x, din', img') ∧
        Mapped img img' i din din' c (c + 1) c taken x) ∨
      img.freeblock = size ∧ img.Full din c := by
  have empty := holds.slot_new bound
  have indirect : din.addr NDIRECT ≠ 0 := by
    have at' : (img.viewOf i din).slot i MAXFILE = din.addr NDIRECT := slot_viewOf_indirect
    rw [← at']
    exact (holds.shaped.slots MAXFILE le_rfl).mpr (.inr ⟨rfl, behind⟩)
  have result : img.appendMap din c = .ok (img.freeblock, din, img.withEntry din c) := by
    unfold appendMap appendAddr
    rw [if_neg (by omega), if_neg indirect]
    simp only
    rw [holds.appendEntry_eq behind.le bound indirect empty]
    rfl
  rcases holds.ok.high.lt_or_eq with room | full
  · obtain ⟨ok, filled, disk⟩ := holds.filled_entry room behind.le bound indirect empty
    refine .inl ⟨room, _, _, _, [img.freeblock], result,
      ⟨ok, .of_filled filled holds.live_view holds.shaped bound behind.ne', disk, ?_, rfl⟩, ?_, ?_⟩
    · unfold growth
      rw [if_neg (by omega)]
      show img.freeblock + 1 = _
      omega
    · rw [filled.slots _ _ holds.live_view, if_pos ⟨rfl, rfl⟩]
    · intro k below
      exact filled.data _ k holds.live_view (holds.slot_data below).1 (holds.slot_data below).2
  · refine .inr ⟨full, .inr ⟨_, _, _, result, ?_⟩⟩
    rw [full]
    exact holds.full_entry full indirect

theorem Holds.appendMap_indirect (holds : Holds img i din NDIRECT) :
    img.freeblock + 2 ≤ size ∧
      (∃ x din' img' taken, img.appendMap din NDIRECT = .ok (x, din', img') ∧
        Mapped img img' i din din' NDIRECT (NDIRECT + 1) NDIRECT taken x) ∨
      size < img.freeblock + 2 ∧ img.Full din NDIRECT := by
  have none' : (img.viewOf i din).slot i MAXFILE = 0 := by
    by_contra some'
    have := (holds.shaped.slots MAXFILE le_rfl).mp some'
    rw [MAXFILE_eq, NDIRECT_eq] at this
    omega
  have none'' : din.addr NDIRECT = 0 := by
    have at' : (img.viewOf i din).slot i MAXFILE = din.addr NDIRECT := slot_viewOf_indirect
    rw [← at', none']
  have word : img.freeblock < 2 ^ 32 := holds.ok.high.trans_lt (by decide)
  have addr : (din.setAddr NDIRECT img.freeblock).addr NDIRECT = img.freeblock := by
    rw [Dinode.addr_setAddr le_rfl word, if_pos rfl]
  have start : img.appendMap din NDIRECT =
      (img.take.appendEntry (din.setAddr NDIRECT img.freeblock) (NDIRECT - NDIRECT)).bind fun y =>
        .ok (y.1, din.setAddr NDIRECT img.freeblock, y.2) := by
    unfold appendMap appendAddr
    rw [if_neg (lt_irrefl _), if_pos none'']
    rfl
  rcases holds.ok.high.lt_or_eq with room | full
  · have filled := holds.filled_addr room le_rfl none'
    have nonzero := filled.nonzero
    have sees : Sees img.take i (din.setAddr NDIRECT img.freeblock) :=
      ⟨holds.ok.take room, holds.inside, filled.owned, by
        rw [((din.setAddr_meta NDIRECT img.freeblock).1)]
        exact holds.live⟩
    have empty : (img.take.viewOf i (din.setAddr NDIRECT img.freeblock)).slot i NDIRECT = 0 := by
      rw [filled.slots _ _ holds.live_view, if_neg fun both => absurd both.2 (by decide)]
      exact holds.slot_new (by decide)
    have entry := sees.appendEntry_eq le_rfl (by decide) (by rw [addr]; exact nonzero) empty
    rw [entry] at start
    have room' : img.take.freeblock ≤ size := room
    rcases room'.lt_or_eq with more | full
    · obtain ⟨ok, filled', disk⟩ :=
        sees.filled_entry more le_rfl (by decide) (by rw [addr]; exact nonzero) empty
      refine .inl ⟨more, _, _, _, [img.freeblock, img.take.freeblock], start,
        ⟨ok, .of_filled_indirect filled filled' holds.live_view holds.shaped, disk, rfl, rfl⟩, ?_,
        ?_⟩
      · rw [filled'.slots _ _ sees.live_view, if_pos ⟨rfl, rfl⟩]
      · intro k below
        obtain ⟨short, some'⟩ := holds.slot_data below
        have same : (img.take.viewOf i (din.setAddr NDIRECT img.freeblock)).slot i k =
            (img.viewOf i din).slot i k := by
          rw [filled.slots _ _ holds.live_view]
          exact if_neg fun both => short.ne both.2
        have late := filled'.data _ k sees.live_view short (same ▸ some')
        rw [same] at late
        exact late.trans (filled.data _ k holds.live_view short some')
    · refine .inr ⟨by show size < img.take.freeblock + 1; omega, .inr ⟨_, _, _, start, ?_⟩⟩
      rw [full]
      exact sees.full_entry full (by rw [addr]; exact nonzero)
  · refine .inr ⟨by omega, .inl ?_⟩
    rw [start]
    unfold appendEntry
    rw [addr]
    have unreadable : img.take.rsect img.freeblock = .error .read := by
      unfold rsect
      rw [if_neg]
      rw [full]
      exact Nat.not_lt.mpr holds.ok.sectors.le
    rw [unreadable]
    rfl

/-- **The block number in `iappend`**: the inode grows if there is room for the growth in the
image. -/
theorem Holds.appendMap_cases (holds : Holds img i din c) {bn : Nat} (next : bn ≤ c)
    (bound : bn < MAXFILE) :
    img.freeblock + growth c (max c (bn + 1)) ≤ size ∧
        (∃ x din' img' taken, img.appendMap din bn = .ok (x, din', img') ∧
          Mapped img img' i din din' c (max c (bn + 1)) bn taken x) ∨
      size < img.freeblock + growth c (max c (bn + 1)) ∧ img.Full din bn := by
  by_cases there : bn < c
  · rw [max_eq_left there, growth_self]
    exact .inl ⟨holds.ok.high, _, _, _, [], holds.appendMap_existing there,
      ⟨holds.ok, .refl holds.owned holds.shaped, rfl, by rw [growth_self]; rfl, rfl⟩, rfl,
      fun _ _ => rfl⟩
  · obtain rfl : bn = c := by omega
    rw [max_eq_right (Nat.le_succ bn)]
    have one : bn ≠ NDIRECT → growth bn (bn + 1) = 1 := by
      intro other
      unfold growth
      rw [if_neg (by omega)]
      omega
    rcases lt_trichotomy bn NDIRECT with direct | rfl | behind
    · rw [one direct.ne]
      exact (holds.appendMap_direct direct).imp_right fun full => ⟨by omega, full.2⟩
    · exact holds.appendMap_indirect
    · rw [one behind.ne']
      exact (holds.appendMap_entry behind bound).imp_right fun full => ⟨by omega, full.2⟩

end Grow

/-! ### Appending bytes -/

/-- The bytes `p` were written at `off`, where the inode grew from `c` to `c'` blocks. -/
structure Appended (img img' : Img) (i : Nat) (din din' : Dinode) (c c' off : Nat) (p : List UInt8)
    (taken : List Nat) : Prop extends Grows img img' i din din' c c' taken where
  bytes : (img.viewOf i din).Patched (img'.viewOf i din') i c off p

/-- Appending `n` bytes at `off` fails for want of blocks or because the file gets too long. -/
def Fails (img : Img) (c c' off n : Nat) (stop : Stop) : Prop :=
  stop = .read ∧ size < img.freeblock + growth c c' ∨ stop = .maxfile ∧ MAXFILE * BSIZE < off + n

section Append

variable {img img' : Img} {i : Nat} {din din' : Dinode} {c c' off : Nat} {p : List UInt8}

theorem Holds.appendBlock_meets (holds : Holds img i din c) (next : off ≤ c * BSIZE)
    (some' : p ≠ []) (fits : off % BSIZE + p.length ≤ BSIZE) :
    Meets (img.appendBlock din p off)
      (fun (din', img') =>
        ∃ taken, Appended img img' i din din' c (max c (off / BSIZE + 1)) off p taken)
      (img.Fails c (max c (off / BSIZE + 1)) off p.length) := by
  have atOff := Nat.div_add_mod off BSIZE
  have positive := List.length_pos_iff.mpr some'
  have within : off - off / 512 * 512 = off % BSIZE := by
    rw [BSIZE_eq]
    omega
  unfold appendBlock
  rw [← BSIZE_eq] at *
  by_cases bound : off / BSIZE < MAXFILE
  · rw [if_pos bound]
    have le : off / BSIZE ≤ c := by
      rw [BSIZE_eq] at *
      omega
    rcases holds.appendMap_cases le bound
      with ⟨_, x, din', img', taken, result, mapped⟩ | ⟨full, fails⟩
    · have holds' := mapped.toGrows.holds holds
      have below : off / BSIZE < max c (off / BSIZE + 1) := by omega
      obtain ⟨data, handed, bytes⟩ := holds'.slot_block (holds'.slot_data below).2
      rw [result]
      simp only [Lib.ok_bind]
      rw [mapped.block, mapped.ok.rsect_eq (handed.trans_le mapped.ok.high)]
      simp only [Lib.ok_bind]
      have after : (img'.wsect ((img'.viewOf i din').slot i (off / BSIZE)) ((img'.blk
          ((img'.viewOf i din').slot i (off / BSIZE))).write (off % BSIZE) p)).viewOf i din' =
          (img'.viewOf i din').setData ((img'.viewOf i din').slot i (off / BSIZE))
            (((img'.viewOf i din').data ((img'.viewOf i din').slot i (off / BSIZE))).write
              (off % BSIZE) p) := by
        rw [bytes]
        show (Img.marked _).setDin i din' = _
        rw [mapped.ok.marked_wsect data]
        rfl
      have edit := View.Edits.write holds'.owned holds'.live_view holds'.shaped below
        (((img'.viewOf i din').data ((img'.viewOf i din').slot i (off / BSIZE))).write
          (off % BSIZE) p)
      rw [← after] at edit
      rw [within]
      have whole := mapped.edits.trans edit
      rw [List.append_nil] at whole
      refine ⟨taken, ⟨mapped.ok.wsect _ (Nat.lt_of_lt_of_le (by decide) data) handed, whole, ?_,
        mapped.count, mapped.inodes⟩, ?_⟩
      · rw [mapped.ok.marked_wsect data]
        exact mapped.disk
      · rw [after]
        exact View.Patched.of_write mapped.edits holds.shaped holds'.live_view mapped.data next fits
    · have bad : img.Fails c (max c (off / BSIZE + 1)) off p.length .read := .inl ⟨rfl, full⟩
      rcases fails with error | ⟨x, din', img', result, unreadable⟩
      · rw [error]
        exact bad
      · rw [result]
        simp only [Lib.ok_bind]
        rw [unreadable]
        exact bad
  · rw [if_neg bound]
    refine .inr ⟨rfl, ?_⟩
    rw [Nat.div_lt_iff_lt_mul (by decide)] at bound
    omega

theorem Holds.appendLoop_meets (holds : Holds img i din c) (next : off ≤ c * BSIZE) :
    Meets (img.appendLoop din p off)
      (fun (din', img') => ∃ taken,
        Appended img img' i din din' c (max c (blocksOf (off + p.length))) off p taken)
      (img.Fails c (max c (blocksOf (off + p.length))) off p.length) := by
  induction len : p.length using Nat.strong_induction_on generalizing img din c off p with
  | _ n ih =>
    rw [appendLoop]
    by_cases done : p = []
    · subst done
      have same : max c (blocksOf (off + ([] : List UInt8).length)) = c :=
        max_eq_left (blocksOf_le.mpr next)
      rw [if_pos rfl, ← len, same]
      exact ⟨[], ⟨holds.ok, .refl holds.owned holds.shaped, rfl, by rw [growth_self]; rfl, rfl⟩,
        .nil _ _ _ _⟩
    · rw [if_neg done, ← len]
      have some' := List.length_pos_iff.mpr done
      have modOff := Nat.mod_lt off (show BSIZE > 0 by decide)
      have atOff := Nat.div_add_mod off BSIZE
      -- What this turn writes, and what is left.
      generalize chunk : min p.length ((off / 512 + 1) * 512 - off) = m
      rw [← BSIZE_eq] at chunk
      have chunk' : min p.length (BSIZE - off % BSIZE) = m := by
        rw [BSIZE_eq] at *
        omega
      have taken' : (p.take m).length = m := by
        rw [List.length_take]
        omega
      have left : (p.drop m).length = p.length - m := List.length_drop
      have here : blocksOf (off + m) = off / BSIZE + 1 := by
        unfold blocksOf
        rw [BSIZE_eq] at *
        omega
      have whole : off + m + (p.length - m) = off + p.length := by omega
      have reach : off / BSIZE + 1 ≤ blocksOf (off + p.length) := by
        rw [← here]
        exact blocksOf_mono (by omega)
      have total : max c (blocksOf (off + p.length)) =
          max (max c (off / BSIZE + 1)) (blocksOf (off + m + (p.drop m).length)) := by
        rw [left, whole]
        omega
      have upto : max c (off / BSIZE + 1) ≤ max c (blocksOf (off + p.length)) := by omega
      have turn := holds.appendBlock_meets (p := p.take m) next
        (by rw [← List.length_pos_iff]; omega) (by omega)
      refine (turn.mono (fun _ good => good) ?_).bind ?_
      · rintro stop (⟨rfl, full⟩ | ⟨rfl, long⟩)
        · refine .inl ⟨rfl, ?_⟩
          rw [growth_add (le_max_left _ _) upto]
          omega
        · exact .inr ⟨rfl, by omega⟩
      · rintro ⟨din₁, img₁⟩ ⟨taken, appended⟩
        have next₁ : off + m ≤ max c (off / BSIZE + 1) * BSIZE := by
          rw [← here]
          exact (blocksOf_le.mp le_rfl).trans (Nat.mul_le_mul_right _ (le_max_right _ _))
        rw [total]
        refine (ih _ (by omega) (appended.toGrows.holds holds) next₁ rfl).mono ?_ ?_
        · rintro ⟨din', img'⟩ ⟨taken₂, appended₂⟩
          refine ⟨taken ++ taken₂, appended.toGrows.trans appended₂.toGrows, ?_⟩
          have later := appended₂.bytes
          rw [show off + m = off + (p.take m).length by rw [taken']] at later
          have joined := appended.bytes.trans later appended.edits.le
          rw [List.take_append_drop] at joined
          exact joined
        · rintro stop (⟨rfl, full⟩ | ⟨rfl, long⟩)
          · refine .inl ⟨rfl, ?_⟩
            rw [appended.count, Nat.add_assoc, ← growth_add (le_max_left _ _) (total ▸ upto)]
              at full
            exact full
          · exact .inr ⟨rfl, by omega⟩

end Append

end Img

end Xv6.Mkfs
