/-
**Byte strings: slices, splices and little-endian words.**

`slice l off n` reads `n` elements at `off`, `splice l off src` writes `src` over `l` at `off` and
grows `l` when `src` sticks out. Every fact about a splice is derived from its elements
(`getElem?_splice`); a slice away from the splice does not see it, a slice at the splice reads it
back, and adjacent splices merge.
-/

import Mathlib.Algebra.Group.Nat.Defs
import Mathlib.Data.List.Basic
import Mathlib.Tactic.Common

namespace Xv6.Lib

section Splice

variable {α : Type*}

/-- The `n` elements of `l` from position `off` on. -/
def slice (l : List α) (off n : Nat) : List α :=
  (l.drop off).take n

/-- `l` with `src` written over it at position `off`. -/
def splice (l : List α) (off : Nat) (src : List α) : List α :=
  l.take off ++ src ++ l.drop (off + src.length)

theorem getElem?_slice (l : List α) (off n i : Nat) :
    (slice l off n)[i]? = if i < n then l[off + i]? else none := by
  unfold slice
  rw [List.getElem?_take]
  split
  · rw [List.getElem?_drop]
  · rfl

theorem length_slice {l : List α} {off n : Nat} (inside : off + n ≤ l.length) :
    (slice l off n).length = n := by
  unfold slice
  rw [List.length_take, List.length_drop]
  omega

theorem slice_zero (l : List α) (n : Nat) : slice l 0 n = l.take n := by
  unfold slice
  rw [List.drop_zero]

theorem slice_all (l : List α) : slice l 0 l.length = l := by
  rw [slice_zero, List.take_length]

theorem getElem?_splice {l : List α} {off : Nat} (within : off ≤ l.length) (src : List α)
    (i : Nat) :
    (splice l off src)[i]? =
      if i < off then l[i]? else if i < off + src.length then src[i - off]? else l[i]? := by
  have headLength : (l.take off).length = off := by
    rw [List.length_take]
    omega
  unfold splice
  rw [List.append_assoc, List.getElem?_append, headLength]
  by_cases before : i < off
  · rw [if_pos before, if_pos before, List.getElem?_take, if_pos before]
  · rw [if_neg before, if_neg before, List.getElem?_append]
    by_cases inside : i < off + src.length
    · rw [if_pos inside, if_pos (by omega)]
    · rw [if_neg inside, if_neg (by omega), List.getElem?_drop]
      congr 1
      omega

theorem length_splice {l : List α} {off : Nat} (within : off ≤ l.length) (src : List α) :
    (splice l off src).length = max l.length (off + src.length) := by
  unfold splice
  rw [List.length_append, List.length_append, List.length_take, List.length_drop]
  omega

theorem length_splice_inside {l : List α} {off : Nat} {src : List α}
    (inside : off + src.length ≤ l.length) : (splice l off src).length = l.length := by
  rw [length_splice (by omega)]
  omega

theorem splice_nil (l : List α) (off : Nat) : splice l off [] = l := by
  unfold splice
  rw [List.append_nil, List.length_nil, Nat.add_zero, List.take_append_drop]

theorem slice_splice_self {l : List α} {off : Nat} (within : off ≤ l.length) (src : List α) :
    slice (splice l off src) off src.length = src := by
  apply List.ext_getElem?
  intro i
  rw [getElem?_slice, getElem?_splice within]
  by_cases inside : i < src.length
  · rw [if_pos inside, if_neg (by omega), if_pos (by omega)]
    congr 1
    omega
  · rw [if_neg inside, List.getElem?_eq_none (by omega)]

/-- **A read away from the written range sees the old elements.** -/
theorem slice_splice_of_disjoint {l : List α} {off : Nat} (within : off ≤ l.length)
    {src : List α} {at' n : Nat} (apart : at' + n ≤ off ∨ off + src.length ≤ at') :
    slice (splice l off src) at' n = slice l at' n := by
  apply List.ext_getElem?
  intro i
  rw [getElem?_slice, getElem?_slice, getElem?_splice within]
  by_cases inside : i < n
  · rw [if_pos inside, if_pos inside]
    by_cases before : at' + i < off
    · rw [if_pos before]
    · rw [if_neg before, if_neg (by omega)]
  · rw [if_neg inside, if_neg inside]

theorem splice_splice_adjacent {l : List α} {off : Nat} (within : off ≤ l.length)
    (first second : List α) :
    splice (splice l off first) (off + first.length) second = splice l off (first ++ second) := by
  have middle : off + first.length ≤ (splice l off first).length := by
    rw [length_splice within]
    omega
  apply List.ext_getElem?
  intro i
  rw [getElem?_splice middle, getElem?_splice within, getElem?_splice within,
    List.length_append, List.getElem?_append]
  by_cases before : i < off
  · rw [if_pos (by omega), if_pos before, if_pos before]
  · rw [if_neg before, if_neg before]
    by_cases inFirst : i < off + first.length
    · rw [if_pos inFirst, if_pos inFirst, if_pos (by omega), if_pos (by omega)]
    · rw [if_neg inFirst, if_neg inFirst]
      by_cases inSecond : i < off + first.length + second.length
      · rw [if_pos inSecond, if_pos (by omega), if_neg (by omega)]
        congr 1
        omega
      · rw [if_neg inSecond, if_neg (by omega)]

theorem slice_append_left {first second : List α} {off n : Nat} (inside : off + n ≤ first.length) :
    slice (first ++ second) off n = slice first off n := by
  unfold slice
  rw [List.drop_append_of_le_length (by omega), List.take_append_of_le_length]
  rw [List.length_drop]
  omega

theorem slice_append_right (first second : List α) (off n : Nat) :
    slice (first ++ second) (first.length + off) n = slice second off n := by
  unfold slice
  rw [List.drop_append, List.drop_of_length_le (by omega), List.nil_append]
  congr 2
  omega

theorem slice_flatMap {β : Type*} {f : β → List α} {k : Nat} {l : List β}
    (length : ∀ x ∈ l, (f x).length = k) {i : Nat} (inside : i < l.length) :
    slice (l.flatMap f) (k * i) k = f (l.get ⟨i, inside⟩) := by
  induction l generalizing i with
  | nil => exact absurd inside (Nat.not_lt_zero _)
  | cons x l ih =>
    have first := length x List.mem_cons_self
    rw [List.flatMap_cons]
    cases i with
    | zero =>
      rw [Nat.mul_zero, slice_append_left (by rw [first]; omega)]
      have whole := slice_all (f x)
      rw [first] at whole
      exact whole
    | succ i =>
      have piece := slice_append_right (f x) (l.flatMap f) (k * i) k
      rw [first] at piece
      rw [Nat.mul_succ, Nat.add_comm, piece]
      exact ih (fun y member => length y (List.mem_cons_of_mem x member))
        (by rw [List.length_cons] at inside; omega)

end Splice

/-! ### Little-endian words -/

/-- A 16-bit word, least significant byte first. -/
def le16 (x : UInt16) : List UInt8 :=
  [UInt8.ofNat x.toNat, UInt8.ofNat (x.toNat / 2 ^ 8)]

/-- The 16-bit word two bytes spell. -/
def ofLe16 : List UInt8 → UInt16
  | [a, b] => UInt16.ofNat (a.toNat + 2 ^ 8 * b.toNat)
  | _ => 0

/-- A 32-bit word, least significant byte first. -/
def le32 (x : UInt32) : List UInt8 :=
  [UInt8.ofNat x.toNat, UInt8.ofNat (x.toNat / 2 ^ 8), UInt8.ofNat (x.toNat / 2 ^ 16),
    UInt8.ofNat (x.toNat / 2 ^ 24)]

/-- The 32-bit word four bytes spell. -/
def ofLe32 : List UInt8 → UInt32
  | [a, b, c, d] =>
    UInt32.ofNat (a.toNat + 2 ^ 8 * b.toNat + 2 ^ 16 * c.toNat + 2 ^ 24 * d.toNat)
  | _ => 0

@[simp] theorem length_le16 (x : UInt16) : (le16 x).length = 2 := rfl

@[simp] theorem length_le32 (x : UInt32) : (le32 x).length = 4 := rfl

@[simp] theorem ofLe16_le16 (x : UInt16) : ofLe16 (le16 x) = x := by
  apply UInt16.toNat_inj.mp
  have bound := x.toNat_lt
  simp only [le16, ofLe16, UInt16.toNat_ofNat', UInt8.toNat_ofNat']
  omega

@[simp] theorem ofLe32_le32 (x : UInt32) : ofLe32 (le32 x) = x := by
  apply UInt32.toNat_inj.mp
  have bound := x.toNat_lt
  simp only [le32, ofLe32, UInt32.toNat_ofNat', UInt8.toNat_ofNat']
  omega

end Xv6.Lib
