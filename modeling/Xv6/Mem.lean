/-
**`memmove` and `memset` of `string.c`, and `memmove` of `ulib.c`.**

The kernel's `memmove` copies overlapping ranges as if through a second buffer. The one of the user
library only copies upwards: where the destination begins inside the source it repeats the first
bytes instead. The two paths of `memset` store the same bytes.
-/

import Xv6.Lib.Memory
import Xv6.Lib.Moves

namespace Xv6.Mem

open Lib Function

/-! ### The loops -/

/-- `while(n-- > 0) *d++ = *s++`. -/
def copyUp (m : Memory) (d s : BitVec 32) : Nat → Memory
  | 0 => m
  | n + 1 => copyUp (move m (d, s)) (d + 1) (s + 1) n

/-- `while(n-- > 0) *--d = *--s`. -/
def copyDown (m : Memory) (d s : BitVec 32) : Nat → Memory
  | 0 => m
  | n + 1 => copyDown (move m (d - 1, s - 1)) (d - 1) (s - 1) n

/-- `memmove` of `string.c`: what it returns, and the memory it leaves. -/
def memmove (m : Memory) (dst src n : BitVec 32) : BitVec 32 × Memory :=
  if src < dst ∧ dst < src + n then (dst, copyDown m (dst + n) (src + n) n.toNat)
  else (dst, copyUp m dst src n.toNat)

/-- `memmove` of `ulib.c`, whose `n` is an `int`. -/
def User.memmove (m : Memory) (dst src n : BitVec 32) : BitVec 32 × Memory :=
  (dst, copyUp m dst src n.toInt.toNat)

/-- The moves of an upward copy. -/
def steps (d s : BitVec 32) (n : Nat) : List (BitVec 32 × BitVec 32) :=
  (List.range n).map fun i => (d + BitVec.ofNat 32 i, s + BitVec.ofNat 32 i)

variable {m : Memory} {d s dst src n x : BitVec 32} {i j k count : Nat}

theorem add_one_ofNat (a : BitVec 32) (i : Nat) :
    a + 1 + BitVec.ofNat 32 i = a + BitVec.ofNat 32 (i + 1) := by
  rw [BitVec.add_assoc, BitVec.ofNat_add, BitVec.add_comm 1]
  rfl

theorem steps_succ (d s : BitVec 32) (n : Nat) :
    steps d s (n + 1) = (d, s) :: steps (d + 1) (s + 1) n := by
  unfold steps
  rw [List.range_succ_eq_map, List.map_cons, List.map_map]
  refine congrArg₂ List.cons (by simp) (List.map_congr_left fun i _ => ?_)
  rw [add_one_ofNat, add_one_ofNat]
  rfl

theorem steps_snoc (d s : BitVec 32) (n : Nat) :
    steps d s (n + 1) = steps d s n ++ [(d + BitVec.ofNat 32 n, s + BitVec.ofNat 32 n)] := by
  unfold steps
  rw [List.range_succ, List.map_append]
  rfl

theorem copyUp_eq (m : Memory) (d s : BitVec 32) (n : Nat) :
    copyUp m d s n = moves m (steps d s n) := by
  induction n generalizing m d s with
  | zero => rfl
  | succ n ih =>
    rw [steps_succ, moves_cons]
    exact ih _ _ _

theorem copyDown_eq (m : Memory) (d s : BitVec 32) (n : Nat) :
    copyDown m (d + BitVec.ofNat 32 n)
      (s + BitVec.ofNat 32 n) n = moves m (steps d s n).reverse := by
  have back :
      ∀ (a : BitVec 32) (n : Nat), a + BitVec.ofNat 32 (n + 1) - 1 = a + BitVec.ofNat 32 n := by
    intro a n
    rw [BitVec.ofNat_add, ← BitVec.add_assoc]
    exact BitVec.add_sub_cancel _ _
  induction n generalizing m with
  | zero => rfl
  | succ n ih =>
    rw [steps_snoc, List.reverse_append, List.reverse_singleton, List.singleton_append,
      moves_cons, ← ih]
    show copyDown (move m (_ - 1, _ - 1)) (_ - 1) (_ - 1) n = _
    rw [back, back]

/-! ### Addresses that do not wrap -/

theorem toNat_add_ofNat (fits : d.toNat + i < 2 ^ 32) :
    (d + BitVec.ofNat 32 i).toNat = d.toNat + i := by
  rw [BitVec.toNat_add, BitVec.toNat_ofNat]
  omega

theorem ofNat_lt (small : i < n.toNat) : BitVec.ofNat 32 i < n := by
  rw [BitVec.lt_def, BitVec.toNat_ofNat]
  exact Nat.lt_of_le_of_lt (Nat.mod_le _ _) small

theorem add_ofNat_ne (left : d.toNat + i < 2 ^ 32) (right : s.toNat + j < 2 ^ 32)
    (apart : d.toNat + i ≠ s.toNat + j) : d + BitVec.ofNat 32 i ≠ s + BitVec.ofNat 32 j := by
  intro same
  apply apart
  rw [← toNat_add_ofNat left, ← toNat_add_ofNat right, same]

theorem pairwise_steps {R : BitVec 32 × BitVec 32 → BitVec 32 × BitVec 32 → Prop}
    (each : ∀ i j, i < j → j < count → R (d + BitVec.ofNat 32 i, s + BitVec.ofNat 32 i)
      (d + BitVec.ofNat 32 j, s + BitVec.ofNat 32 j)) : (steps d s count).Pairwise R :=
  List.pairwise_map.mpr (List.pairwise_lt_range.imp_of_mem fun {i j} _ right before =>
    each i j before (List.mem_range.mp right))

theorem settled_up (dstFits : d.toNat + count ≤ 2 ^ 32) (srcFits : s.toNat + count ≤ 2 ^ 32)
    (apart : d.toNat ≤ s.toNat ∨ s.toNat + count ≤ d.toNat) : Settled (steps d s count) := by
  refine pairwise_steps fun i j before right => ?_
  exact ⟨add_ofNat_ne (by omega) (by omega) (by omega), add_ofNat_ne (by omega)
    (by omega) (by omega)⟩

theorem settled_down (dstFits : d.toNat + count ≤ 2 ^ 32) (srcFits : s.toNat + count ≤ 2 ^ 32)
    (above : s.toNat ≤ d.toNat) : Settled (steps d s count).reverse := by
  refine List.pairwise_reverse.mpr (pairwise_steps fun i j before right => ?_)
  exact ⟨add_ofNat_ne (by omega) (by omega) (by omega), add_ofNat_ne (by omega)
    (by omega) (by omega)⟩

theorem mem_steps (inside : i < count) :
    (d + BitVec.ofNat 32 i, s + BitVec.ofNat 32 i) ∈ steps d s count :=
  List.mem_map_of_mem (List.mem_range.mpr inside)

theorem not_mem_steps (outside : ∀ i < count, x ≠ d + BitVec.ofNat 32 i) :
    ∀ p ∈ steps d s count, x ≠ p.1 := by
  intro p member
  obtain ⟨i, inside, rfl⟩ := List.mem_map.mp member
  exact outside i (List.mem_range.mp inside)

/-! ### What `memmove` does -/

/-- The bytes `src[0..n)` of `m` stand at `dst[0..n)` of `m'`, and nothing else changed. -/
structure Copied (m m' : Memory) (dst src n : BitVec 32) : Prop where
  inside : ∀ i < n, m' (dst + i) = m (src + i)
  outside : ∀ x, (∀ i < n, x ≠ dst + i) → m' x = m x

theorem Copied.of_moves {l : List (BitVec 32 × BitVec 32)} (settled : Settled l)
    (all : ∀ p, p ∈ l ↔ p ∈ steps dst src n.toNat) : Copied m (moves m l) dst src n where
  inside i small := by
    have member := (all _).mpr (mem_steps (d := dst) (s := src) small)
    rw [BitVec.ofNat_toNat, BitVec.setWidth_eq] at member
    exact moves_of_mem settled member
  outside x outside := by
    refine moves_of_not_mem fun p member => not_mem_steps (fun i small => ?_) p ((all p).mp member)
    exact outside _ (ofNat_lt small)

theorem Copied.unique {m₁ m₂ : Memory} (one : Copied m m₁ dst src n) (two : Copied m m₂ dst src n) :
    m₁ = m₂ := by
  funext x
  by_cases inside : ∃ i < n, x = dst + i
  · obtain ⟨i, small, rfl⟩ := inside
    rw [one.inside i small, two.inside i small]
  · have outside : ∀ i < n, x ≠ dst + i := fun i small same => inside ⟨i, small, same⟩
    rw [one.outside x outside, two.outside x outside]

theorem overlap_iff (dstFits : dst.toNat + n.toNat ≤ 2 ^ 32) :
    (src < dst ∧ dst < src + n) ↔ src.toNat < dst.toNat ∧ dst.toNat < src.toNat + n.toNat := by
  rw [BitVec.lt_def, BitVec.lt_def, BitVec.toNat_add]
  omega

theorem copied_copyUp (dstFits : dst.toNat + n.toNat ≤ 2 ^ 32)
    (srcFits : src.toNat + n.toNat ≤ 2 ^ 32) (apart : ¬ (src < dst ∧ dst < src + n)) :
    Copied m (copyUp m dst src n.toNat) dst src n := by
  rw [overlap_iff dstFits] at apart
  rw [copyUp_eq]
  exact .of_moves (settled_up dstFits srcFits (by omega)) fun p => Iff.rfl

theorem memmove_fst (m : Memory) (dst src n : BitVec 32) : (memmove m dst src n).1 = dst := by
  unfold memmove
  split <;> rfl

theorem copied_memmove (dstFits : dst.toNat + n.toNat ≤ 2 ^ 32)
    (srcFits : src.toNat + n.toNat ≤ 2 ^ 32) : Copied m (memmove m dst src n).2 dst src n := by
  unfold memmove
  by_cases overlap : src < dst ∧ dst < src + n
  · rw [if_pos overlap]
    have down := copyDown_eq m dst src n.toNat
    rw [BitVec.ofNat_toNat, BitVec.setWidth_eq] at down
    show Copied m (copyDown m (dst + n) (src + n) n.toNat) dst src n
    rw [down]
    exact .of_moves (settled_down dstFits srcFits (Nat.le_of_lt (BitVec.lt_def.mp overlap.1)))
      fun p => List.mem_reverse
  · rw [if_neg overlap]
    exact copied_copyUp dstFits srcFits overlap

/-- **`memmove` is right under overlap**: the destination has the bytes the source had, and every
byte outside of it is unchanged. -/
theorem memmove_copies (m : Memory) (dst src n : BitVec 32) (dstFits : dst.toNat + n.toNat ≤ 2 ^ 32)
    (srcFits : src.toNat + n.toNat ≤ 2 ^ 32) :
    (memmove m dst src n).1 = dst ∧
      (∀ i < n, (memmove m dst src n).2 (dst + i) = m (src + i)) ∧
      ∀ x, (∀ i < n, x ≠ dst + i) → (memmove m dst src n).2 x = m x := by
  have copied := copied_memmove (m := m) dstFits srcFits
  exact ⟨memmove_fst m dst src n, copied.inside, copied.outside⟩

theorem memmove_copies_overlap :
    (memmove (fun x => x.setWidth 8) 0x1001 0x1000 2).2 0x1002 = 1 :=
  (memmove_copies (fun x => x.setWidth 8) 0x1001 0x1000 2 (by decide) (by decide)).2.1 1 (by decide)

/-! ### The user library -/

/-- **The upward copy of overlapping ranges** repeats the bytes between the beginnings of the
two. -/
theorem copyUp_repeats (between : 0 < k) (fits : s.toNat + k + count ≤ 2 ^ 32)
    (inside : i < count) :
    copyUp m (s + BitVec.ofNat 32 k) s count (s + BitVec.ofNat 32 (k + i)) =
      m (s + BitVec.ofNat 32 (i % k)) := by
  have target : ∀ i, s + BitVec.ofNat 32 k + BitVec.ofNat 32 i = s + BitVec.ofNat 32 (k + i) :=
    fun i => by
    rw [BitVec.add_assoc, BitVec.ofNat_add]
  rw [copyUp_eq]
  -- The last move reads below the destination, or what an earlier move stored there.
  induction count generalizing i with
  | zero => exact absurd inside (Nat.not_lt_zero i)
  | succ n ih =>
    rw [steps_snoc, moves_append, target]
    show update (moves m _) _ _ _ = _
    by_cases last : i = n
    · subst last
      rw [update_self]
      by_cases low : i < k
      · rw [Nat.mod_eq_of_lt low]
        refine moves_of_not_mem (not_mem_steps fun j earlier => ?_)
        rw [target]
        exact add_ofNat_ne (by omega) (by omega) (by omega)
      · have stored := ih (i := i - k) (by omega) (by omega)
        rwa [Nat.add_sub_cancel' (Nat.le_of_not_lt low),
          ← Nat.mod_eq_sub_mod (Nat.le_of_not_lt low)] at stored
    · rw [update_of_ne (add_ofNat_ne (by omega) (by omega) (by omega))]
      exact ih (by omega) (by omega)

/-- **The two `memmove`s agree** exactly when the destination does not begin inside the source, or
the source already repeats the bytes before the destination. -/
theorem user_memmove_eq_iff (m : Memory) (dst src n : BitVec 32) (nonneg : 0 ≤ n.toInt)
    (dstFits : dst.toNat + n.toNat ≤ 2 ^ 32) (srcFits : src.toNat + n.toNat ≤ 2 ^ 32) :
    User.memmove m dst src n = memmove m dst src n ↔
      (src < dst → dst < src + n → ∀ i < n, m (src + i) = m (src + i % (dst - src))) := by
  have turns : n.toInt.toNat = n.toNat := by
    have low := BitVec.toInt_neg_iff.not.mp (Int.not_lt.mpr nonneg)
    rw [BitVec.toInt_eq_toNat_cond, if_pos (Nat.not_le.mp low), Int.toNat_natCast]
  have copied := copied_memmove (m := m) dstFits srcFits
  have memory : User.memmove m dst src n = memmove m dst src n ↔
      copyUp m dst src n.toNat = (memmove m dst src n).2 := by
    unfold User.memmove
    rw [turns, Prod.ext_iff, memmove_fst, and_iff_right rfl]
  rw [memory]
  by_cases overlap : src < dst ∧ dst < src + n
  swap
  · exact iff_of_true ((copied_copyUp dstFits srcFits overlap).unique copied)
      fun above inside => absurd ⟨above, inside⟩ overlap
  obtain ⟨above, _⟩ := (overlap_iff dstFits).mp overlap
  have distance : (dst - src).toNat = dst.toNat - src.toNat := by
    rw [BitVec.toNat_sub]
    omega
  have start : src + (dst - src) = dst := by bv_omega
  have repeats : ∀ i < n, copyUp m dst src n.toNat (dst + i) = m (src + i % (dst - src)) := by
    intro i small
    have fits : src.toNat + (dst - src).toNat + n.toNat ≤ 2 ^ 32 := by omega
    have all := copyUp_repeats (m := m) (by omega) fits small
    rw [BitVec.ofNat_add, ← BitVec.add_assoc, ← BitVec.toNat_umod] at all
    simpa only [BitVec.ofNat_toNat, BitVec.setWidth_eq, start] using all
  constructor
  · intro same _ _ i small
    rw [← copied.inside i small, ← same]
    exact repeats i small
  · intro periodic
    refine Copied.unique ⟨fun i small => ?_, ?_⟩ copied
    · rw [repeats i small]
      exact (periodic overlap.1 overlap.2 i small).symm
    · intro x outside
      rw [copyUp_eq]
      exact moves_of_not_mem (not_mem_steps fun i small => outside _ (ofNat_lt small))

/-- A source of equal bytes may be copied onto itself shifted. -/
theorem user_memmove_eq_const :
    User.memmove (fun _ => 7) 0x1001 0x1000 2 = memmove (fun _ => 7) 0x1001 0x1000 2 :=
  (user_memmove_eq_iff (fun _ => 7) 0x1001 0x1000 2 (by decide) (by decide) (by decide)).mpr
    fun _ _ _ _ => rfl

/-- Two bytes moved up by one: the user library stores the first of them twice. -/
theorem user_memmove_overlap_ne :
    (User.memmove (fun x => x.setWidth 8) 0x1001 0x1000 2).2 0x1002 = 0 ∧
      (memmove (fun x => x.setWidth 8) 0x1001 0x1000 2).2 0x1002 = 1 := by
  decide

/-! ### `memset` -/

/-- `rep stosb`: the low byte of `data` is stored `cnt` times. -/
def stosbLoop (m : Memory) (addr data : BitVec 32) : Nat → Memory
  | 0 => m
  | cnt + 1 => stosbLoop (update m addr (Memory.byteOf data 0)) (addr + 1) data cnt

/-- `rep stosl`: the word `data` is stored `cnt` times. -/
def stoslLoop (m : Memory) (addr data : BitVec 32) : Nat → Memory
  | 0 => m
  | cnt + 1 => stoslLoop (m.write addr data) (addr + 4) data cnt

/-- `stosb`; `%ecx` counts without sign. -/
def stosb (m : Memory) (addr data cnt : BitVec 32) : Memory := stosbLoop m addr data cnt.toNat

/-- `stosl`. -/
def stosl (m : Memory) (addr data cnt : BitVec 32) : Memory := stoslLoop m addr data cnt.toNat

/-- `(c<<24)|(c<<16)|(c<<8)|c`. -/
def spread (c : BitVec 32) : BitVec 32 := c <<< 24 ||| c <<< 16 ||| c <<< 8 ||| c

/-- `memset`: what it returns, and the memory it leaves. -/
def memset (m : Memory) (dst c n : BitVec 32) : BitVec 32 × Memory :=
  if dst.srem 4 = 0 ∧ n % 4#32 = 0#32 then (dst, stosl m dst (spread (c &&& 0xFF)) (n / 4#32))
  else (dst, stosb m dst c n)

/-- The `cnt` bytes from `addr` on are `b`. -/
def filled (m : Memory) (addr : BitVec 32) (b : BitVec 8) (cnt : Nat) : Memory := fun x =>
  if (x - addr).toNat < cnt then b else m x

theorem stosbLoop_eq (m : Memory) (addr data : BitVec 32) {cnt : Nat} (fits : cnt ≤ 2 ^ 32) :
    stosbLoop m addr data cnt = filled m addr (Memory.byteOf data 0) cnt := by
  induction cnt generalizing m addr with
  | zero => rfl
  | succ cnt ih =>
    unfold stosbLoop
    rw [ih _ _ (by omega)]
    funext x
    unfold filled
    by_cases first : x = addr
    · subst first
      rw [update_self, ite_self, BitVec.sub_self, if_pos (by simp)]
    · have next : (x - addr).toNat = (x - (addr + 1)).toNat + 1 := by bv_omega
      rw [update_of_ne first, next]
      simp only [Nat.add_lt_add_iff_right]

theorem stoslLoop_eq (m : Memory) (addr : BitVec 32) {data : BitVec 32} {b : BitVec 8} {cnt : Nat}
    (bytes : ∀ i < 4, Memory.byteOf data i = b) (fits : 4 * cnt ≤ 2 ^ 32) :
    stoslLoop m addr data cnt = filled m addr b (4 * cnt) := by
  induction cnt generalizing m addr with
  | zero => rfl
  | succ cnt ih =>
    unfold stoslLoop
    rw [ih _ _ (by omega)]
    funext x
    unfold filled
    by_cases first : x - addr < 4
    · rw [Memory.write_of_lt first, bytes _ first, ite_self, if_pos]
      have : (x - addr).toNat < 4 := first
      omega
    · have next : (x - addr).toNat = (x - (addr + 4)).toNat + 4 := by bv_omega
      rw [Memory.write_of_le (BitVec.not_lt.mp first), next]
      simp only [Nat.mul_add, Nat.mul_one, Nat.add_lt_add_iff_right]

theorem getLsbD_mask (c : BitVec 32) (t : Nat) :
    (c &&& 0xFF).getLsbD t = (decide (t < 8) && c.getLsbD t) := by
  have mask : (0xFF : BitVec 32).getLsbD t = decide (t < 8) := by
    by_cases inside : t < 32
    · have all : ∀ t < 32, (0xFF : BitVec 32).getLsbD t = decide (t < 8) := by decide
      exact all t inside
    · rw [BitVec.getLsbD_of_ge _ _ (by omega), decide_eq_false (by omega)]
  rw [BitVec.getLsbD_and, mask, Bool.and_comm]

theorem getLsbD_shift_mask (c : BitVec 32) {i k t : Nat} (small : i < 4) (inside : t < 8) :
    ((c &&& 0xFF) <<< (8 * k)).getLsbD (8 * i + t) = (decide (i = k) && c.getLsbD t) := by
  rw [BitVec.getLsbD_shiftLeft, getLsbD_mask, decide_eq_true (by omega : 8 * i + t < 32),
    Bool.true_and]
  by_cases same : i = k
  · subst same
    rw [decide_eq_false (by omega : ¬ 8 * i + t < 8 * i), Nat.add_sub_cancel_left,
      decide_eq_true inside, decide_eq_true rfl]
    rfl
  · rw [decide_eq_false same, Bool.false_and]
    by_cases below : 8 * i + t < 8 * k
    · rw [decide_eq_true below]
      rfl
    · rw [decide_eq_false (by omega : ¬ 8 * i + t - 8 * k < 8), Bool.false_and, Bool.and_false]

theorem byteOf_spread (c : BitVec 32) {i : Nat} (small : i < 4) :
    Memory.byteOf (spread (c &&& 0xFF)) i = Memory.byteOf c 0 := by
  have places : spread (c &&& 0xFF) = (c &&& 0xFF) <<< (8 * 3) ||| (c &&& 0xFF) <<< (8 * 2) |||
      (c &&& 0xFF) <<< (8 * 1) ||| (c &&& 0xFF) <<< (8 * 0) := by
    rw [Nat.mul_zero, BitVec.shiftLeft_zero]
    rfl
  apply BitVec.eq_of_getLsbD_eq
  intro t inside
  unfold Memory.byteOf
  simp only [places, BitVec.getLsbD_extractLsb', BitVec.getLsbD_or,
    getLsbD_shift_mask c small inside]
  rw [Nat.mul_zero, Nat.zero_add]
  have which : i = 0 ∨ i = 1 ∨ i = 2 ∨ i = 3 := by omega
  rcases which with rfl | rfl | rfl | rfl <;> simp

/-- **The two paths of `memset`** store the same: `dst[0..n)` becomes the low byte of `c`, and
nothing else changes. -/
theorem memset_fills (m : Memory) (dst c n : BitVec 32) :
    memset m dst c n = (dst, fun x => if x - dst < n then Memory.byteOf c 0 else m x) ∧
      memset m dst c n = (dst, stosb m dst c n) := by
  have bytes : stosb m dst c n = fun x => if x - dst < n then Memory.byteOf c 0 else m x :=
    stosbLoop_eq m dst c (Nat.le_of_lt n.isLt)
  have same : memset m dst c n = (dst, stosb m dst c n) := by
    unfold memset
    split
    · next aligned =>
      have words : 4 * (n / 4#32).toNat = n.toNat := by
        have whole : n.toNat % 4 = 0 := congrArg BitVec.toNat aligned.2
        show 4 * (n.toNat / 4) = n.toNat
        omega
      unfold stosl stosb
      rw [stoslLoop_eq m dst (fun i small => byteOf_spread c small) (by omega), words,
        stosbLoop_eq m dst c (Nat.le_of_lt n.isLt)]
    · rfl
  exact ⟨by rw [same, bytes], same⟩

end Xv6.Mem
