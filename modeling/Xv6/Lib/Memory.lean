/-
**Byte-addressed memory with little-endian 32-bit words.**

Addresses are 32-bit and wrap around. A word read where one was written is that word; a word whose
four bytes lie elsewhere is unchanged, and so is every byte outside. The distance `b - a` of two
addresses, taken modulo `2 ^ 32`, says how far `b` lies above `a`.
-/

import Mathlib.Algebra.Group.Nat.Defs
import Mathlib.Data.List.Basic
import Mathlib.Tactic.Common

namespace Xv6.Lib

/-- The contents of a 32-bit address space. -/
abbrev Memory := BitVec 32 → BitVec 8

namespace Memory

variable {m m' : Memory} {a b x v w : BitVec 32}

/-- Byte `i` of a word. -/
def byteOf (v : BitVec 32) (i : Nat) : BitVec 8 := v.extractLsb' (8 * i) 8

/-- The word of four bytes. -/
def ofBytes (f : Nat → BitVec 8) : BitVec 32 := f 3 ++ f 2 ++ f 1 ++ f 0

/-- Byte `i` of a word is replaced. -/
def setByte (v : BitVec 32) (i : Nat) (b : BitVec 8) : BitVec 32 :=
  ofBytes fun j => if j = i then b else byteOf v j

/-- The word at `a`. -/
def read (m : Memory) (a : BitVec 32) : BitVec 32 := m (a + 3) ++ m (a + 2) ++ m (a + 1) ++ m a

/-- The word `v` stored at `a`. -/
def write (m : Memory) (a v : BitVec 32) : Memory := fun x =>
  if x - a < 4 then byteOf v (x - a).toNat else m x

theorem write_of_lt (inside : x - a < 4) : m.write a v x = byteOf v (x - a).toNat := if_pos inside

theorem write_of_le (outside : 4 ≤ x - a) : m.write a v x = m x :=
  if_neg (BitVec.not_lt.mpr outside)

theorem append_byteOf (v : BitVec 32) :
    byteOf v 3 ++ byteOf v 2 ++ byteOf v 1 ++ byteOf v 0 = v := by
  apply BitVec.eq_of_getLsbD_eq
  intro i inside
  simp only [byteOf, BitVec.getLsbD_append, BitVec.getLsbD_extractLsb']
  split
  · simp [*]
  · split
    · have : 8 * 1 + (i - 8) = i := by omega
      simp [*]
    · split
      · have : 8 * 2 + (i - 8 - 8) = i := by omega
        simp [*]
      · have : 8 * 3 + (i - 8 - 8 - 8) = i := by omega
        have : i - 8 - 8 - 8 < 8 := by omega
        simp [*]

theorem read_write_self (m : Memory) (a v : BitVec 32) : (m.write a v).read a = v := by
  have byte : ∀ i : BitVec 32, i < 4 → m.write a v (a + i) = byteOf v i.toNat := by
    intro i small
    have distance : a + i - a = i := by bv_omega
    rw [write_of_lt (by rw [distance]; exact small), distance]
  have first : m.write a v a = byteOf v 0 := by
    have := byte 0#32 (by decide)
    rwa [BitVec.add_zero] at this
  unfold read
  rw [byte 3 (by decide), byte 2 (by decide), byte 1 (by decide), first]
  exact append_byteOf v

/-- The words at `a` and `b` have no byte in common. -/
def Apart (a b : BitVec 32) : Prop := 4 ≤ a - b ∧ 4 ≤ b - a

instance (a b : BitVec 32) : Decidable (Apart a b) := inferInstanceAs (Decidable (_ ∧ _))

theorem read_congr (same : ∀ i : BitVec 32, i < 4 → m' (a + i) = m (a + i)) :
    m'.read a = m.read a := by
  have first := same 0#32 (by decide)
  rw [BitVec.add_zero] at first
  unfold read
  rw [same 3 (by decide), same 2 (by decide), same 1 (by decide), first]

theorem byteOf_ofBytes (f : Nat → BitVec 8) {j : Nat} (small : j < 4) :
    byteOf (ofBytes f) j = f j := by
  have extract : ∀ (b₃ b₂ b₁ b₀ : BitVec 8), byteOf (b₃ ++ b₂ ++ b₁ ++ b₀) 0 = b₀ ∧
      byteOf (b₃ ++ b₂ ++ b₁ ++ b₀) 1 = b₁ ∧ byteOf (b₃ ++ b₂ ++ b₁ ++ b₀) 2 = b₂ ∧
      byteOf (b₃ ++ b₂ ++ b₁ ++ b₀) 3 = b₃ := by
    intro b₃ b₂ b₁ b₀
    refine ⟨?_, ?_, ?_, ?_⟩ <;>
    · apply BitVec.eq_of_getLsbD_eq
      intro t inside
      simp only [byteOf, BitVec.getLsbD_extractLsb', BitVec.getLsbD_append, inside, decide_true,
        Bool.true_and]
      repeat' split
      all_goals first | omega | (congr 1; omega)
  obtain ⟨zero, one, two, three⟩ := extract (f 3) (f 2) (f 1) (f 0)
  have which : j = 0 ∨ j = 1 ∨ j = 2 ∨ j = 3 := by omega
  rcases which with rfl | rfl | rfl | rfl
  · exact zero
  · exact one
  · exact two
  · exact three

theorem byteOf_setByte (v : BitVec 32) (i : Nat) (b : BitVec 8) {j : Nat} (small : j < 4) :
    byteOf (setByte v i b) j = if j = i then b else byteOf v j :=
  byteOf_ofBytes _ small

theorem byteOf_read {i : BitVec 32} (small : i < 4) : byteOf (m.read a) i.toNat = m (a + i) := by
  have whole : m.read a = ofBytes fun j => m (a + BitVec.ofNat 32 j) := by
    have last : m (a + BitVec.ofNat 32 0) = m a := congrArg m (BitVec.add_zero a)
    unfold read ofBytes
    simp only [last]
    rfl
  have few : i.toNat < 4 := small
  rw [whole, byteOf_ofBytes _ few, BitVec.ofNat_toNat, BitVec.setWidth_eq]

theorem write_read_self (m : Memory) (a : BitVec 32) : m.write a (m.read a) = m := by
  funext x
  by_cases inside : x - a < 4
  · have here : a + (x - a) = x := by bv_omega
    rw [write_of_lt inside, byteOf_read inside, here]
  · exact write_of_le (BitVec.not_lt.mp inside)

theorem read_write_of_apart (apart : Apart a b) : (m.write b v).read a = m.read a := by
  refine read_congr fun i small => write_of_le ?_
  obtain ⟨below, above⟩ := apart
  bv_omega

end Memory

end Xv6.Lib
