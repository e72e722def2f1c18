/-
**What the blocks of the disk mean.**

A `View` is a file system as its areas spell it: the super block, one bit per block, one inode per
number, and the blocks behind the bitmap. A `log_write` of a bitmap, inode or data block changes
exactly one component of it, so later proofs never mention sectors again, except through `Logs`,
which records what a call handed to the log and that it changed nothing else there.
-/

import Mathlib.Data.Finset.Card
import Mathlib.Logic.Function.Basic
import Xv6.Fs.Inode
import Xv6.Lib.Meets

namespace Xv6

open Lib Function

/-! ### The log during a call -/

namespace Fs

/-- How many sectors of `sectors` the log does not hold yet. -/
def unlogged (s : Fs) (sectors : Finset Nat) : Nat :=
  (sectors.filter fun x => UInt32.ofNat x ∉ s.log.lh.sector).card

/-- The log can take all of `sectors`: a transaction is open and a slot is left after them. -/
structure Room (s : Fs) (sectors : Finset Nat) : Prop where
  inside : 1 ≤ s.log.outstanding
  room : s.log.lh.n + s.unlogged sectors < s.log.capacity

/-- From `s` to `s'` exactly `sectors` were handed to `log_write`. -/
structure Logs (s s' : Fs) (sectors : List Nat) : Prop where
  wrote : s'.wrote = s.wrote ++ sectors
  devsw : s'.devsw = s.devsw
  outstanding : s'.log.outstanding = s.log.outstanding
  committing : s'.log.committing = s.log.committing
  start : s'.log.start = s.log.start
  size : s'.log.size = s.log.size
  sector : s'.log.lh.sector = LogHeader.absorbAll s.log.lh.sector (sectors.map UInt32.ofNat)
  grows : ∀ more : Finset Nat, (∀ x ∈ sectors, x ∈ more) →
    s'.log.lh.n + s'.unlogged more ≤ s.log.lh.n + s.unlogged more
  within : sectors ≠ [] → s'.log.lh.n ≤ s.log.capacity

theorem Logs.refl (s : Fs) : Logs s s [] where
  wrote := (List.append_nil _).symm
  devsw := rfl
  outstanding := rfl
  committing := rfl
  start := rfl
  size := rfl
  sector := rfl
  grows _ _ := le_rfl
  within none := (none rfl).elim

theorem Logs.capacity {s s' : Fs} {sectors : List Nat} (logs : Logs s s' sectors) :
    s'.log.capacity = s.log.capacity := by
  unfold Log.capacity
  rw [logs.size]

theorem Logs.header {s s' : Fs} {sectors : List Nat} (logs : Logs s s' sectors) (x : UInt32) :
    x ∈ s'.log.lh.sector ↔ x ∈ s.log.lh.sector ∨ x ∈ sectors.map UInt32.ofNat := by
  rw [logs.sector]
  exact LogHeader.mem_absorbAll x

/-- What two calls log after each other. -/
theorem Logs.trans {s m s' : Fs} {first second : List Nat} (one : Logs s m first)
    (two : Logs m s' second) : Logs s s' (first ++ second) where
  wrote := by rw [two.wrote, one.wrote, List.append_assoc]
  devsw := two.devsw.trans one.devsw
  outstanding := two.outstanding.trans one.outstanding
  committing := two.committing.trans one.committing
  start := two.start.trans one.start
  size := two.size.trans one.size
  sector := by rw [two.sector, one.sector, List.map_append, LogHeader.absorbAll_append]
  grows more all :=
    (two.grows more fun x member => all x (List.mem_append_right _ member)).trans
      (one.grows more fun x member => all x (List.mem_append_left _ member))
  within some' := by
    by_cases last : second = []
    · subst last
      rw [List.append_nil] at some'
      have same := two.grows ∅ (by simp)
      simp only [unlogged, Finset.filter_empty, Finset.card_empty, Nat.add_zero] at same
      exact same.trans (one.within some')
    · exact (two.within last).trans_eq one.capacity

/-- Only sectors below `top` were logged. -/
def LogsBelow (s s' : Fs) (top : Nat) : Prop :=
  ∃ sectors, Logs s s' sectors ∧ ∀ x ∈ sectors, x < top

theorem LogsBelow.refl (s : Fs) (top : Nat) : LogsBelow s s top :=
  ⟨[], .refl s, fun _ absurdity => (List.not_mem_nil absurdity).elim⟩

theorem LogsBelow.trans {s m s' : Fs} {top : Nat} (one : LogsBelow s m top)
    (two : LogsBelow m s' top) : LogsBelow s s' top := by
  obtain ⟨first, logs, below⟩ := one
  obtain ⟨second, logs', below'⟩ := two
  refine ⟨first ++ second, logs.trans logs', fun x member => ?_⟩
  rcases List.mem_append.mp member with early | late
  · exact below x early
  · exact below' x late

theorem Logs.logsBelow {s s' : Fs} {x top : Nat} (logs : Logs s s' [x]) (below : x < top) :
    LogsBelow s s' top :=
  ⟨[x], logs, fun y member => by rwa [List.mem_singleton.mp member]⟩

/-- Room for sectors is still there when some of them have been logged. -/
theorem Logs.keeps_room {s s' : Fs} {sectors : List Nat} (logs : Logs s s' sectors)
    {more : Finset Nat} (all : ∀ x ∈ sectors, x ∈ more) (room : s.Room more) : s'.Room more where
  inside := by
    rw [logs.outstanding]
    exact room.inside
  room := by
    rw [logs.capacity]
    exact (logs.grows more all).trans_lt room.room

/-- A panic of the log, in a state without room for `sectors`. -/
def NoRoom (s : Fs) (sectors : Finset Nat) (panic : Panic) : Prop :=
  (panic = .tooBigATransaction ∨ panic = .logWriteOutsideOfTrans ∧ s.log.outstanding < 1) ∧
    ¬ s.Room sectors

theorem Logs.noRoom {s s' : Fs} {sectors : List Nat} (logs : Logs s s' sectors)
    {more : Finset Nat} {panic : Panic} (all : ∀ x ∈ sectors, x ∈ more)
    (none : s'.NoRoom more panic) : s.NoRoom more panic :=
  ⟨logs.outstanding ▸ none.1, fun room => none.2 (logs.keeps_room all room)⟩

/-- **`log_write`** stores the block and logs its sector; it fails only where the log has no
room. -/
theorem logWrite_meets (s : Fs) (sector : Nat) (data : Block) (more : Finset Nat) :
    Meets (s.logWrite sector data)
      (fun s' => s'.blk = update s.blk sector data ∧ Logs s s' [sector])
      (s.NoRoom more) := by
  unfold logWrite
  cases result : s.log.write (UInt32.ofNat sector) with
  | error panic =>
    have open' : 1 ≤ s.log.outstanding → s.log.lh.n < s.log.capacity → False := by
      intro inside room
      rw [Log.write_eq_ok.mpr ⟨inside, room, rfl⟩] at result
      cases result
    exact ⟨Log.write_error result,
      fun room => open' room.inside ((Nat.le_add_right _ _).trans_lt room.room)⟩
  | ok log =>
    obtain ⟨inside, room, rfl⟩ := Log.write_eq_ok.mp result
    have bound : s.log.lh.n < LOGSIZE := lt_of_lt_of_le room (min_le_left _ _)
    refine ⟨rfl, rfl, rfl, rfl, rfl, rfl, rfl, ?_, ?_, ?_⟩
    · exact LogHeader.sector_absorb bound
    · intro wider all
      show (s.log.lh.absorb _ bound).n + (wider.filter fun x => UInt32.ofNat x ∉
        (s.log.lh.absorb (UInt32.ofNat sector) bound).sector).card ≤ _
      by_cases known : UInt32.ofNat sector ∈ s.log.lh.sector
      · have same : s.log.lh.absorb (UInt32.ofNat sector) bound = s.log.lh := by
          unfold LogHeader.absorb
          rw [if_pos known]
        rw [same]
        exact le_rfl
      · rw [LogHeader.n_absorb_fresh bound known]
        have fewer : (wider.filter fun x => UInt32.ofNat x ∉
            (s.log.lh.absorb (UInt32.ofNat sector) bound).sector) ⊂
            wider.filter fun x => UInt32.ofNat x ∉ s.log.lh.sector := by
          refine Finset.ssubset_iff_subset_ne.mpr ⟨?_, ?_⟩
          · intro x
            simp only [Finset.mem_filter, LogHeader.mem_absorb, not_or]
            rintro ⟨inner, old, _⟩
            exact ⟨inner, old⟩
          · intro equal
            have inner : sector ∈ wider.filter fun x => UInt32.ofNat x ∉ s.log.lh.sector :=
              Finset.mem_filter.mpr ⟨all sector (List.mem_singleton_self _), known⟩
            rw [← equal, Finset.mem_filter, LogHeader.mem_absorb] at inner
            exact inner.2 (.inr rfl)
        have := Finset.card_lt_card fewer
        unfold unlogged
        omega
    · intro _
      show (s.log.lh.absorb _ bound).n ≤ _
      by_cases known : UInt32.ofNat sector ∈ s.log.lh.sector
      · rw [LogHeader.n_absorb_known bound known]
        exact room.le
      · rw [LogHeader.n_absorb_fresh bound known]
        exact room

end Fs

/-! ### The view of a disk -/

/-- A file system as its areas spell it. -/
@[ext] structure View where
  sb : Superblock
  bit : Nat → Bool
  din : Nat → Dinode
  data : Nat → Block

namespace View

def setBit (v : View) (b : Nat) (used : Bool) : View :=
  { v with bit := update v.bit b used }

def setDin (v : View) (i : Nat) (d : Dinode) : View := { v with din := update v.din i d }

def setData (v : View) (b : Nat) (block : Block) : View :=
  { v with data := update v.data b block }

@[simp] theorem bit_setDin (v : View) (i : Nat) (d : Dinode) : (v.setDin i d).bit = v.bit := rfl

@[simp] theorem din_setDin_self (v : View) (i : Nat) (d : Dinode) : (v.setDin i d).din i = d :=
  update_self ..

theorem din_setDin_of_ne {i j : Nat} (other : j ≠ i) (v : View) (d : Dinode) :
    (v.setDin i d).din j = v.din j := update_of_ne other ..

@[simp] theorem data_setDin (v : View) (i : Nat) (d : Dinode) : (v.setDin i d).data = v.data := rfl

@[simp] theorem data_setData_self (v : View) (b : Nat) (block : Block) :
    (v.setData b block).data b = block := update_self ..

theorem data_setData_of_ne {b b' : Nat} (other : b' ≠ b) (v : View) (block : Block) :
    (v.setData b block).data b' = v.data b' := update_of_ne other ..

/-- The free blocks, in the order `balloc` finds them. -/
def free (v : View) : List Nat := (List.range v.sb.size.toNat).filter fun b => !v.bit b

/-- The blocks up to the data area are marked in use. -/
def MetaUsed (v : View) : Prop := ∀ b, b < v.sb.dataStart → v.bit b = true

theorem mem_free {v : View} {b : Nat} :
    b ∈ v.free ↔ b < v.sb.size.toNat ∧ v.bit b = false := by
  unfold free
  rw [List.mem_filter, List.mem_range, Bool.not_eq_true']

theorem nodup_free (v : View) : v.free.Nodup := List.nodup_range.filter _

theorem MetaUsed.dataStart_le {v : View} (used : v.MetaUsed) {b : Nat} (free : b ∈ v.free) :
    v.sb.dataStart ≤ b := by
  by_contra below
  rw [mem_free, used b (Nat.lt_of_not_le below)] at free
  exact Bool.noConfusion free.2

theorem free_setBit {v : View} {b : Nat} {rest : List Nat} (first : v.free = b :: rest) :
    (v.setBit b true).free = rest := by
  have filtered : (v.setBit b true).free = v.free.filter fun x => decide (x ≠ b) := by
    unfold free
    rw [List.filter_filter]
    apply List.filter_congr
    intro x _
    by_cases same : x = b
    · subst same
      simp [setBit]
    · simp [setBit, same]
  have distinct : b ∉ rest := by
    have := v.nodup_free
    rw [first] at this
    exact (List.nodup_cons.mp this).1
  rw [filtered, first, List.filter_cons_of_neg (by simp), List.filter_eq_self]
  intro x member
  simp only [decide_eq_true_eq]
  rintro rfl
  exact distinct member

@[simp] theorem setDin_setDin (v : View) (i : Nat) (d d' : Dinode) :
    (v.setDin i d).setDin i d' = v.setDin i d' := by
  unfold setDin
  rw [update_idem]

theorem setDin_self {v : View} {i : Nat} {d : Dinode} (same : v.din i = d) : v.setDin i d = v := by
  subst same
  unfold setDin
  rw [update_eq_self]

end View

namespace Fs

/-- The view of the blocks. A block number outside the disk reads as used, an inode number outside
the table as free. -/
def view (s : Fs) : View where
  sb := s.readsb
  bit b :=
    if b < s.readsb.size.toNat then (s.blk (BBLOCK b s.readsb.ninodes.toNat)).bit (b % BPB)
      else true
  din i := if i < s.readsb.ninodes.toNat then s.dinode i else Dinode.zero
  data b := if s.readsb.dataStart ≤ b then s.blk b else Block.zero

theorem readsb_update {s s' : Fs} {x : Nat} {block : Block}
    (stored : s'.blk = update s.blk x block) (other : 1 < x) : s'.readsb = s.readsb := by
  unfold readsb
  rw [stored, update_of_ne (by omega)]

theorem view_bit_of_lt {s : Fs} {b : Nat} (inside : b < s.view.sb.size.toNat) :
    s.view.bit b = (s.blk (BBLOCK b s.readsb.ninodes.toNat)).bit (b % BPB) := if_pos inside

theorem view_din_of_lt {s : Fs} {i : Nat} (inside : i < s.view.sb.ninodes.toNat) :
    s.view.din i = s.dinode i := if_pos inside

theorem view_data_of_le {s : Fs} {b : Nat} (inside : s.view.sb.dataStart ≤ b) :
    s.view.data b = s.blk b := if_pos inside

theorem eq_of_bitmap {b b' n : Nat} (block : BBLOCK b' n = BBLOCK b n) (bit : b' % BPB = b % BPB) :
    b' = b := by
  unfold BBLOCK at block
  rw [BPB_eq] at *
  omega

/-- A new bitmap block changes one bit of the view. -/
theorem view_bitmap {s s' : Fs} {b : Nat} {block : Block} {used : Bool}
    (inside : b < s.readsb.size.toNat)
    (stored : s'.blk = update s.blk (BBLOCK b s.readsb.ninodes.toNat) block)
    (bits : ∀ bi, block.bit bi =
      if bi = b % BPB then used else (s.blk (BBLOCK b s.readsb.ninodes.toNat)).bit bi) :
    s'.view = s.view.setBit b used := by
  have sb := readsb_update stored (one_lt_BBLOCK _ _)
  apply View.ext
  · exact sb
  · funext b'
    show (if b' < s'.readsb.size.toNat then _ else true) = update s.view.bit b used b'
    rw [sb, stored]
    by_cases same : b' = b
    · subst same
      rw [if_pos inside, update_self, update_self, bits, if_pos rfl]
    · rw [update_of_ne same]
      by_cases shared : BBLOCK b' s.readsb.ninodes.toNat = BBLOCK b s.readsb.ninodes.toNat
      · have apart : b' % BPB ≠ b % BPB := fun bit => same (eq_of_bitmap shared bit)
        rw [shared, update_self, bits, if_neg apart, ← shared]
        rfl
      · rw [update_of_ne shared]
        rfl
  · funext i
    show (if i < s'.readsb.ninodes.toNat then _ else _) = s.view.din i
    rw [sb]
    by_cases live : i < s.readsb.ninodes.toNat
    · rw [if_pos live, view_din_of_lt live]
      unfold dinode
      rw [stored, update_of_ne (Superblock.IBLOCK_lt_BBLOCK live b).ne]
    · rw [if_neg live]
      exact (if_neg live).symm
  · funext b'
    show (if s'.readsb.dataStart ≤ b' then _ else _) = s.view.data b'
    rw [sb, stored]
    by_cases data : s.readsb.dataStart ≤ b'
    · have below := Superblock.BBLOCK_lt_dataStart inside
      rw [if_pos data, update_of_ne (by omega), view_data_of_le data]
    · rw [if_neg data]
      exact (if_neg data).symm

theorem view_setBit {s s' : Fs} {b : Nat} (inside : b < s.readsb.size.toNat)
    (stored : s'.blk = update s.blk (BBLOCK b s.readsb.ninodes.toNat)
      ((s.blk (BBLOCK b s.readsb.ninodes.toNat)).setBit (b % BPB))) :
    s'.view = s.view.setBit b true := by
  refine view_bitmap inside stored fun bi => ?_
  rw [Block.bit_setBit (Nat.mod_lt _ (by decide))]
  by_cases same : bi = b % BPB <;> simp [same]

theorem view_clearBit {s s' : Fs} {b : Nat} (inside : b < s.readsb.size.toNat)
    (stored : s'.blk = update s.blk (BBLOCK b s.readsb.ninodes.toNat)
      ((s.blk (BBLOCK b s.readsb.ninodes.toNat)).clearBit (b % BPB))) :
    s'.view = s.view.setBit b false := by
  refine view_bitmap inside stored fun bi => ?_
  rw [Block.bit_clearBit (Nat.mod_lt _ (by decide))]
  by_cases same : bi = b % BPB <;> simp [same]

/-- A stored inode changes one inode of the view. -/
theorem view_putDinode {s s' : Fs} {i : Nat} {d : Dinode} (inside : i < s.readsb.ninodes.toNat)
    (stored : s'.blk = update s.blk (IBLOCK i)
      (Dinode.store (s.blk (IBLOCK i)) (i % IPB) d)) :
    s'.view = s.view.setDin i d := by
  have sb := readsb_update stored (one_lt_IBLOCK _)
  apply View.ext
  · exact sb
  · funext b
    show (if b < s'.readsb.size.toNat then _ else true) = s.view.bit b
    rw [sb, stored, update_of_ne (Superblock.IBLOCK_lt_BBLOCK inside b).ne']
    rfl
  · funext j
    show (if j < s'.readsb.ninodes.toNat then s'.dinode j else _) = update s.view.din i d j
    rw [sb]
    unfold dinode
    rw [stored]
    by_cases same : j = i
    · subst same
      rw [if_pos inside, update_self, update_self,
        Dinode.load_store_self (Nat.mod_lt _ (by decide))]
    · rw [update_of_ne same]
      by_cases shared : IBLOCK j = IBLOCK i
      · have apart : j % IPB ≠ i % IPB := by
          intro slot
          unfold IBLOCK at shared
          rw [IPB_eq] at *
          omega
        rw [shared, update_self, Dinode.load_store_of_ne apart, ← shared]
        rfl
      · rw [update_of_ne shared]
        rfl
  · funext b
    show (if s'.readsb.dataStart ≤ b then _ else _) = s.view.data b
    rw [sb, stored]
    by_cases data : s.readsb.dataStart ≤ b
    · have below := Superblock.IBLOCK_lt_dataStart inside
      rw [if_pos data, update_of_ne (by omega), view_data_of_le data]
    · rw [if_neg data]
      exact (if_neg data).symm

/-- A stored data block changes one block of the view. -/
theorem view_setData {s s' : Fs} {b : Nat} {block : Block} (inside : s.readsb.dataStart ≤ b)
    (stored : s'.blk = update s.blk b block) : s'.view = s.view.setData b block := by
  have sb := readsb_update stored (Nat.lt_of_lt_of_le (Superblock.two_le_dataStart _) inside)
  apply View.ext
  · exact sb
  · funext b'
    show (if b' < s'.readsb.size.toNat then _ else true) = s.view.bit b'
    rw [sb, stored]
    by_cases bit : b' < s.readsb.size.toNat
    · have below := Superblock.BBLOCK_lt_dataStart bit
      rw [if_pos bit, update_of_ne (by omega), view_bit_of_lt bit]
    · rw [if_neg bit]
      exact (if_neg bit).symm
  · funext i
    show (if i < s'.readsb.ninodes.toNat then _ else _) = s.view.din i
    rw [sb]
    by_cases live : i < s.readsb.ninodes.toNat
    · have below := Superblock.IBLOCK_lt_dataStart live
      rw [if_pos live, view_din_of_lt live]
      unfold dinode
      rw [stored, update_of_ne (by omega)]
    · rw [if_neg live]
      exact (if_neg live).symm
  · funext b'
    show (if s'.readsb.dataStart ≤ b' then s'.blk b' else _) = update s.view.data b block b'
    rw [sb, stored]
    by_cases same : b' = b
    · subst same
      rw [if_pos inside, update_self, update_self]
    · rw [update_of_ne same, update_of_ne same]
      rfl

end Fs

end Xv6
