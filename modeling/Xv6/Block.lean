/-
**Disk blocks.**

A block is the `uchar data[512]` of a `struct buf`; its length is part of the type. The file system
accesses a range of bytes (the `memmove`s), a 32-bit word (the `uint*` casts of indirect blocks and
log headers) and a bit (the bitmap), and makes the zero block (the `memset`). Each write comes with
what every later access sees of it.
-/

import Mathlib.Data.Nat.Bitwise
import Xv6.Lib.Bytes
import Xv6.Param

namespace Xv6

open Lib

/-- The contents of one sector. -/
@[ext] structure Block where
  data : List UInt8
  size : data.length = BSIZE
  deriving DecidableEq

namespace Block

/-- The block of zeros. -/
def zero : Block := ⟨List.replicate BSIZE 0, List.length_replicate⟩

/-- The `n` bytes at offset `off`. -/
def read (b : Block) (off n : Nat) : List UInt8 := slice b.data off n

/-- `src` copied over the block at offset `off`; the copy never leaves the block. -/
def write (b : Block) (off : Nat) (src : List UInt8) : Block :=
  if inside : off + src.length ≤ BSIZE then
    ⟨splice b.data off src, by rw [length_splice_inside (by rw [b.size]; exact inside), b.size]⟩
  else b

theorem data_write {b : Block} {off : Nat} {src : List UInt8} (inside : off + src.length ≤ BSIZE) :
    (b.write off src).data = splice b.data off src := by
  unfold write
  rw [dif_pos inside]

theorem read_write_self {b : Block} {off : Nat} {src : List UInt8}
    (inside : off + src.length ≤ BSIZE) : (b.write off src).read off src.length = src := by
  unfold read
  rw [data_write inside, slice_splice_self (by rw [b.size]; omega)]

theorem read_write_of_disjoint {b : Block} {off : Nat} {src : List UInt8} {at' n : Nat}
    (apart : at' + n ≤ off ∨ off + src.length ≤ at') :
    (b.write off src).read at' n = b.read at' n := by
  by_cases inside : off + src.length ≤ BSIZE
  · unfold read
    rw [data_write inside, slice_splice_of_disjoint (by rw [b.size]; omega) apart]
  · unfold write
    rw [dif_neg inside]

theorem length_read {b : Block} {off n : Nat} (inside : off + n ≤ BSIZE) :
    (b.read off n).length = n :=
  length_slice (by rw [b.size]; exact inside)

theorem read_all (b : Block) : b.read 0 BSIZE = b.data := by
  unfold read
  rw [← b.size]
  exact slice_all _

theorem write_all (b : Block) {src : List UInt8} (whole : src.length = BSIZE) :
    b.write 0 src = ⟨src, whole⟩ := by
  apply Block.ext
  rw [data_write (by omega)]
  unfold splice
  rw [List.take_zero, List.nil_append, List.drop_of_length_le (by rw [b.size, whole]; omega),
    List.append_nil]

theorem read_zero {off n : Nat} (inside : off + n ≤ BSIZE) :
    zero.read off n = List.replicate n 0 := by
  unfold read zero slice
  rw [List.drop_replicate, List.take_replicate]
  congr 1
  omega

/-! ### Words -/

/-- The `i`-th 32-bit word. -/
def word (b : Block) (i : Nat) : UInt32 := ofLe32 (b.read (4 * i) 4)

/-- The block with its `i`-th 32-bit word replaced. -/
def setWord (b : Block) (i : Nat) (x : UInt32) : Block := b.write (4 * i) (le32 x)

theorem word_setWord_self {b : Block} {i : Nat} (inside : i < NINDIRECT) (x : UInt32) :
    (b.setWord i x).word i = x := by
  have bound : 4 * i + (le32 x).length ≤ BSIZE := by
    rw [length_le32]
    unfold NINDIRECT BSIZE at *
    omega
  have reads : (b.write (4 * i) (le32 x)).read (4 * i) 4 = le32 x := read_write_self bound
  unfold word setWord
  rw [reads, ofLe32_le32]

theorem word_setWord_of_ne {b : Block} {i j : Nat} (x : UInt32) (other : j ≠ i) :
    (b.setWord i x).word j = b.word j := by
  unfold word setWord
  rw [read_write_of_disjoint]
  rw [length_le32]
  omega

theorem word_setWord {b : Block} {i : Nat} (inside : i < NINDIRECT) (x : UInt32) (j : Nat) :
    (b.setWord i x).word j = if j = i then x else b.word j := by
  by_cases same : j = i
  · subst same
    rw [if_pos rfl, word_setWord_self inside]
  · rw [if_neg same, word_setWord_of_ne x same]

theorem word_zero {i : Nat} (inside : i < NINDIRECT) : zero.word i = 0 := by
  unfold word
  rw [read_zero (by unfold NINDIRECT BSIZE at *; omega)]
  rfl

/-! ### Bits -/

/-- The byte at offset `i`. -/
def byte (b : Block) (i : Nat) : UInt8 := (b.data[i]?).getD 0

/-- `1 << (bi % 8)`. -/
def mask (bi : Nat) : UInt8 := UInt8.ofNat (2 ^ (bi % 8))

/-- Is bit `bi` set? The source tests `data[bi/8] & m`. -/
def bit (b : Block) (bi : Nat) : Bool := b.byte (bi / 8) &&& mask bi != 0

/-- `data[bi/8] |= m`. -/
def setBit (b : Block) (bi : Nat) : Block := b.write (bi / 8) [b.byte (bi / 8) ||| mask bi]

/-- `data[bi/8] &= ~m`. -/
def clearBit (b : Block) (bi : Nat) : Block := b.write (bi / 8) [b.byte (bi / 8) &&& ~~~ mask bi]

theorem read_eq_map {b : Block} {off n : Nat} (inside : off + n ≤ BSIZE) :
    b.read off n = (List.range' off n).map b.byte := by
  apply List.ext_getElem?
  intro i
  unfold read byte
  rw [getElem?_slice, List.getElem?_map]
  by_cases below : i < n
  · have bound : off + i < b.data.length := by
      rw [b.size]
      omega
    rw [List.getElem?_range' below]
    simp [below, bound]
  · simp [below]

theorem byte_write {b : Block} {off : Nat} {src : List UInt8} (inside : off + src.length ≤ BSIZE)
    (p : Nat) :
    (b.write off src).byte p =
      if off ≤ p ∧ p < off + src.length then (src[p - off]?).getD 0 else b.byte p := by
  unfold byte
  rw [data_write inside, getElem?_splice (by rw [b.size]; omega)]
  by_cases before : p < off
  · rw [if_pos before, if_neg (by omega)]
  · rw [if_neg before]
    by_cases within : p < off + src.length
    · rw [if_pos within, if_pos (by omega)]
    · rw [if_neg within, if_neg (by omega)]

theorem byte_write_one {b : Block} {i : Nat} (inside : i < BSIZE) (x : UInt8) (j : Nat) :
    (b.write i [x]).byte j = if j = i then x else b.byte j := by
  unfold byte
  rw [data_write (by rw [List.length_singleton]; omega), getElem?_splice (by rw [b.size]; omega),
    List.length_singleton]
  by_cases same : j = i
  · subst same
    rw [if_neg (by omega), if_pos (by omega), if_pos rfl, Nat.sub_self]
    rfl
  · rw [if_neg same]
    by_cases before : j < i
    · rw [if_pos before]
    · rw [if_neg before, if_neg (by omega)]

theorem mask_toNat (bi : Nat) : (mask bi).toNat = 2 ^ (bi % 8) := by
  unfold mask
  rw [UInt8.toNat_ofNat', Nat.mod_eq_of_lt]
  exact Nat.pow_lt_pow_right (by omega) (Nat.mod_lt _ (by omega))

theorem bit_eq_testBit (b : Block) (bi : Nat) :
    b.bit bi = (b.byte (bi / 8)).toNat.testBit (bi % 8) := by
  unfold bit
  have value : (b.byte (bi / 8) &&& mask bi).toNat =
      ((b.byte (bi / 8)).toNat.testBit (bi % 8)).toNat * 2 ^ (bi % 8) := by
    rw [UInt8.toNat_and, mask_toNat, Nat.and_two_pow]
  cases found : (b.byte (bi / 8)).toNat.testBit (bi % 8) with
  | false =>
    rw [found, Bool.toNat_false, Nat.zero_mul] at value
    have isZero : b.byte (bi / 8) &&& mask bi = 0 := UInt8.toNat_inj.mp value
    rw [isZero]
    rfl
  | true =>
    rw [found, Bool.toNat_true, Nat.one_mul] at value
    have positive : 0 < 2 ^ (bi % 8) := Nat.two_pow_pos _
    apply bne_iff_ne.mpr
    intro isZero
    rw [isZero] at value
    have : (0 : UInt8).toNat = 0 := rfl
    omega

theorem bit_setBit {b : Block} {bi : Nat} (inside : bi < BPB) (bj : Nat) :
    (b.setBit bi).bit bj = (decide (bj = bi) || b.bit bj) := by
  have bound : bi / 8 < BSIZE := by
    unfold BPB at inside
    omega
  rw [bit_eq_testBit, bit_eq_testBit]
  unfold setBit
  rw [byte_write_one bound]
  by_cases sameByte : bj / 8 = bi / 8
  · rw [if_pos sameByte, UInt8.toNat_or, Nat.testBit_or, mask_toNat, Nat.testBit_two_pow, sameByte,
      Bool.or_comm]
    congr 1
    apply decide_eq_decide.mpr
    omega
  · rw [if_neg sameByte, decide_eq_false (fun same => sameByte (by rw [same])), Bool.false_or]

theorem bit_clearBit {b : Block} {bi : Nat} (inside : bi < BPB) (bj : Nat) :
    (b.clearBit bi).bit bj = (decide (bj ≠ bi) && b.bit bj) := by
  have bound : bi / 8 < BSIZE := by
    unfold BPB at inside
    omega
  rw [bit_eq_testBit, bit_eq_testBit]
  unfold clearBit
  rw [byte_write_one bound]
  by_cases sameByte : bj / 8 = bi / 8
  · have complement : (~~~ mask bi).toNat.testBit (bj % 8) = decide (bj % 8 ≠ bi % 8) := by
      have small : bj % 8 < 8 := Nat.mod_lt _ (by omega)
      have value : (~~~ mask bi).toNat = 2 ^ 8 - ((mask bi).toNat + 1) := by
        rw [UInt8.toNat_not, show UInt8.size = 2 ^ 8 from rfl]
        omega
      rw [value, Nat.testBit_two_pow_sub_succ (mask bi).toNat_lt, mask_toNat, Nat.testBit_two_pow,
        decide_eq_true small, Bool.true_and, ← decide_not]
      apply decide_eq_decide.mpr
      omega
    rw [if_pos sameByte, UInt8.toNat_and, Nat.testBit_and, complement, sameByte, Bool.and_comm]
    congr 1
    apply decide_eq_decide.mpr
    omega
  · have other : bj ≠ bi := fun same => sameByte (by rw [same])
    rw [if_neg sameByte, decide_eq_true other, Bool.true_and]

theorem bit_zero (bi : Nat) : zero.bit bi = false := by
  rw [bit_eq_testBit]
  have isZero : zero.byte (bi / 8) = 0 := by
    unfold byte zero
    by_cases inside : bi / 8 < BSIZE
    · rw [List.getElem?_replicate, if_pos inside]
      rfl
    · rw [List.getElem?_eq_none (by rw [List.length_replicate]; omega)]
      rfl
  rw [isZero]
  exact Nat.zero_testBit _

end Block

end Xv6
