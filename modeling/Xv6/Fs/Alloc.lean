/-
**The block allocator.**

`balloc` takes the first free block of the bitmap, marks it and zeroes it; `bfree` marks a block
free and panics if it was free already. Both are stated on the view.
-/

import Xv6.Fs.View

namespace Xv6

open Lib Function

/-- The view with block `b` allocated: marked and zeroed. -/
def View.alloc (v : View) (b : Nat) : View := (v.setBit b true).setData b Block.zero

namespace Fs

/-- The inner loop of `balloc` stops at the first clear bit of a bitmap block. -/
theorem scanBits_eq_some {bp : Block} {b size bi : Nat} (found : scanBits bp b size = some bi) :
    bp.bit bi = false ∧ bi < BPB ∧ b + bi < size ∧ ∀ before, before < bi →
      bp.bit before = true := by
  unfold scanBits at found
  rw [List.find?_range_eq_some] at found
  obtain ⟨clear, inside, least⟩ := found
  rw [List.mem_range] at inside
  refine ⟨by simpa using clear, by omega, by omega, ?_⟩
  intro before earlier
  simpa using least before earlier

theorem scanBits_eq_none {bp : Block} {b size bi : Nat} (none' : scanBits bp b size = none)
    (inside : bi < BPB) (within : b + bi < size) : bp.bit bi = true := by
  unfold scanBits at none'
  rw [List.find?_range_eq_none] at none'
  simpa using none' bi (by omega)

theorem bitmap_base {b bi n : Nat} (base : b % BPB = 0) (inside : bi < BPB) :
    BBLOCK b n = BBLOCK (b + bi) n ∧ (b + bi) % BPB = bi := by
  unfold BBLOCK
  rw [BPB_eq] at *
  omega

theorem bitmap_split (x : Nat) : x / BPB * BPB + x % BPB = x := by
  rw [Nat.mul_comm]
  exact Nat.div_add_mod x BPB

theorem view_bit_base {s : Fs} {b bi : Nat} (base : b % BPB = 0) (inside : bi < BPB)
    (within : b + bi < s.readsb.size.toNat) :
    s.view.bit (b + bi) = (s.blk (BBLOCK b s.readsb.ninodes.toNat)).bit bi := by
  obtain ⟨block, bit⟩ := bitmap_base (n := s.readsb.ninodes.toNat) base inside
  rw [view_bit_of_lt within, ← block, bit]

theorem view_bit_of_scan_none {s : Fs} {k x : Nat} (at' : x / BPB = k)
    (within : x < s.readsb.size.toNat)
    (none' : scanBits (s.blk (BBLOCK (k * BPB) s.readsb.ninodes.toNat)) (k * BPB)
      s.readsb.size.toNat = none) : s.view.bit x = true := by
  subst at'
  have small : x % BPB < BPB := Nat.mod_lt _ (by decide)
  have split := bitmap_split x
  have bit := view_bit_base (s := s) (Nat.mul_mod_left (x / BPB) BPB) small (by omega)
  rw [split] at bit
  rw [bit]
  exact scanBits_eq_none none' small (by omega)

/-- The scan of `balloc` finds the first block of the free list. -/
theorem findFree_eq_some {s : Fs} {b bi : Nat} (found : s.findFree = some (b, bi)) :
    b % BPB = 0 ∧ bi < BPB ∧ ∃ rest, s.view.free = (b + bi) :: rest := by
  unfold findFree at found
  rw [List.findSome?_eq_some_iff] at found
  obtain ⟨before, k, after, split, here, earlier⟩ := found
  rw [Option.map_eq_some_iff] at here
  obtain ⟨_, scan, pair⟩ := here
  obtain ⟨rfl, same⟩ := Prod.mk.inj pair
  rw [same] at scan
  obtain ⟨clear, inside, within, least⟩ := scanBits_eq_some scan
  have base : k * BPB % BPB = 0 := Nat.mul_mod_left _ _
  refine ⟨base, inside, ?_⟩
  have done : before = List.range k := by
    have position : k = before.length := by
      have at' : (List.range ((s.readsb.size.toNat + BPB - 1) / BPB))[before.length]? = some k := by
        rw [split, List.getElem?_append_right le_rfl, Nat.sub_self]
        rfl
      rw [List.getElem?_range] at at'
      · exact (Option.some.inj at').symm
      · have := congrArg List.length split
        simp only [List.length_range, List.length_append, List.length_cons] at this
        omega
    have front := congrArg (List.take before.length) split
    rw [List.take_left, List.take_range, ← position] at front
    rw [← front]
    congr 1
    have := congrArg List.length split
    simp only [List.length_range, List.length_append, List.length_cons] at this
    omega
  have head : s.view.free.head? = some (k * BPB + bi) := by
    unfold View.free
    rw [List.head?_filter, List.find?_range_eq_some]
    refine ⟨?_, List.mem_range.mpr within, ?_⟩
    · rw [view_bit_base base inside within, clear]
      rfl
    · intro x smaller
      rw [Bool.not_not]
      by_cases same : x / BPB = k
      · have small : x % BPB < BPB := Nat.mod_lt _ (by decide)
        have whole := bitmap_split x
        rw [same] at whole
        rw [← whole, view_bit_base base small (by omega)]
        exact least _ (by omega)
      · have lower : x / BPB < k := by
          have : x / BPB ≤ (k * BPB + bi) / BPB := Nat.div_le_div_right (by omega)
          rw [BPB_eq] at *
          omega
        have skipped := earlier (x / BPB) (by rw [done]; exact List.mem_range.mpr lower)
        rw [Option.map_eq_none_iff] at skipped
        exact view_bit_of_scan_none rfl (by omega) skipped
  exact List.head?_eq_some_iff.mp head

theorem findFree_eq_none {s : Fs} (found : s.findFree = none) : s.view.free = [] := by
  unfold findFree at found
  rw [List.findSome?_eq_none_iff] at found
  rw [List.eq_nil_iff_forall_not_mem]
  intro x member
  obtain ⟨within, clear⟩ := View.mem_free.mp member
  have scanned := found (x / BPB) (by
    rw [List.mem_range]
    show x / BPB < (s.view.sb.size.toNat + BPB - 1) / BPB
    rw [BPB_eq]
    omega)
  rw [Option.map_eq_none_iff] at scanned
  rw [view_bit_of_scan_none rfl within scanned] at clear
  cases clear

/-- The sectors after `balloc` of `b`: the bit of `b` is set, and the block is zeroed. -/
def allocated (s : Fs) (b : Nat) : Nat → Block :=
  update (update s.blk (BBLOCK b s.readsb.ninodes.toNat)
    ((s.blk (BBLOCK b s.readsb.ninodes.toNat)).setBit (b % BPB))) b Block.zero

/-- **`balloc`** on the sectors: it takes the first free block. It fails where no block is free or
the log has no room for the bitmap block and the block. -/
theorem balloc_allocated {s : Fs} (more : Finset Nat)
    (named :
    ∀ b rest, s.view.free = b :: rest → BBLOCK b s.readsb.ninodes.toNat ∈ more ∧ b ∈ more) :
    Meets s.balloc
      (fun (b, s') => (∃ rest, s.view.free = b :: rest) ∧ s'.blk = s.allocated b ∧
        Logs s s' [BBLOCK b s.readsb.ninodes.toNat, b])
      (fun panic => panic = .ballocOutOfBlocks ∧ s.view.free = [] ∨ s.view.free ≠ [] ∧
      s.NoRoom more panic) := by
  unfold balloc
  cases found : s.findFree with
  | none => exact .inl ⟨rfl, findFree_eq_none found⟩
  | some at' =>
    obtain ⟨base, bi⟩ := at'
    obtain ⟨aligned, small, rest, first⟩ := findFree_eq_some found
    obtain ⟨block, bit⟩ := bitmap_base (n := s.readsb.ninodes.toNat) aligned small
    obtain ⟨mark, zero⟩ := named _ _ first
    have some' : s.view.free ≠ [] := by
      rw [first]
      exact List.cons_ne_nil _ _
    refine ((s.logWrite_meets _ _ more).mono (fun _ good => good) fun _ bad =>
      .inr ⟨some', bad⟩).bind ?_
    rintro m ⟨stored, logged⟩
    rw [block] at stored logged
    have early : ∀ x ∈ [BBLOCK (base + bi) s.readsb.ninodes.toNat], x ∈ more := by simpa using mark
    refine ((m.logWrite_meets _ _ more).mono (fun _ good => good)
      fun _ bad => .inr ⟨some', logged.noRoom early bad⟩).bind ?_
    rintro s' ⟨zeroed, logged'⟩
    refine ⟨⟨rest, first⟩, ?_, logged.trans logged'⟩
    rw [zeroed, stored]
    unfold allocated
    rw [bit]

theorem view_allocated {s s' : Fs} {b : Nat} (inside : b < s.readsb.size.toNat)
    (data : s.readsb.dataStart ≤ b) (got : s'.blk = s.allocated b) : s'.view = s.view.alloc b := by
  let m : Fs := { s with
    blk := update s.blk (BBLOCK b s.readsb.ninodes.toNat)
      ((s.blk (BBLOCK b s.readsb.ninodes.toNat)).setBit (b % BPB)) }
  have marked : m.view = s.view.setBit b true := view_setBit inside rfl
  have sb : m.readsb = s.readsb := congrArg View.sb marked
  rw [view_setData (s := m) (sb ▸ data) got, marked]
  rfl

/-- `balloc` takes the first free block, on the view. -/
theorem balloc_meets {s : Fs} (used : s.view.MetaUsed) (more : Finset Nat)
    (named : ∀ b rest, s.view.free = b :: rest →
      BBLOCK b s.readsb.ninodes.toNat ∈ more ∧ b ∈ more) :
    Meets s.balloc
      (fun (b, s') => (∃ rest, s.view.free = b :: rest) ∧ s'.view = s.view.alloc b ∧
        Logs s s' [BBLOCK b s.readsb.ninodes.toNat, b])
      (fun panic => panic = .ballocOutOfBlocks ∧ s.view.free = [] ∨ s.NoRoom more panic) := by
  refine (balloc_allocated more named).mono ?_ fun _ bad => bad.imp_right And.right
  rintro ⟨b, s'⟩ ⟨⟨rest, first⟩, got, logged⟩
  have member : b ∈ s.view.free := first ▸ List.mem_cons_self
  exact ⟨⟨rest, first⟩, view_allocated (View.mem_free.mp member).1 (used.dataStart_le member) got,
    logged⟩

/-- The sectors after `bfree` of `b`: its bit is clear. -/
def cleared (s : Fs) (b : Nat) : Nat → Block :=
  update s.blk (BBLOCK b s.readsb.ninodes.toNat)
    ((s.blk (BBLOCK b s.readsb.ninodes.toNat)).clearBit (b % BPB))

theorem bfree_cleared {s : Fs} {b : Nat} (more : Finset Nat)
    (set : (s.blk (BBLOCK b s.readsb.ninodes.toNat)).bit (b % BPB) = true) :
    Meets (s.bfree b) (fun s' => s'.blk = s.cleared b ∧ Logs s s' [BBLOCK b s.readsb.ninodes.toNat])
      (s.NoRoom more) := by
  unfold bfree
  rw [if_neg (by rw [set]; exact Bool.noConfusion)]
  exact s.logWrite_meets _ _ more

/-- `bfree` frees a used block, and panics on a free one. -/
theorem bfree_meets {s : Fs} {b : Nat} (inside : b < s.view.sb.size.toNat) (more : Finset Nat) :
    Meets (s.bfree b)
      (fun s' => s.view.bit b = true ∧ s'.view = s.view.setBit b false ∧
        Logs s s' [BBLOCK b s.readsb.ninodes.toNat])
      (fun panic => panic = .freeingFreeBlock ∧ s.view.bit b = false ∨ s.NoRoom more panic) := by
  have bit := view_bit_of_lt inside
  by_cases clear : (s.blk (BBLOCK b s.readsb.ninodes.toNat)).bit (b % BPB) = false
  · unfold bfree
    rw [if_pos clear]
    exact .inl ⟨rfl, bit.trans clear⟩
  · have set := Bool.eq_true_of_not_eq_false clear
    refine (bfree_cleared more set).mono ?_ fun _ bad => .inr bad
    rintro s' ⟨stored, logged⟩
    exact ⟨bit.trans set, view_clearBit inside stored, logged⟩

end Fs

end Xv6
