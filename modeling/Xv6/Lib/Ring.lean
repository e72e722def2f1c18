/-
**Rings with counters that wrap.**

A ring of `n` places holds the elements that were put in and not taken out yet. Its two counters run
on modulo `2 ^ 32`; the place of a count is its remainder modulo `n`. If `n` divides `2 ^ 32` a
wrapped counter goes on at the next place, and the elements are a list (`ring`): an element is put
at its end and taken from its front.
-/

import Mathlib.Data.List.Basic
import Mathlib.Data.Nat.ModEq
import Mathlib.Logic.Function.Basic

namespace Xv6.Lib

open Function

variable {α : Type} {n : Nat} [NeZero n]

/-- The place of a count. -/
def ringIndex (n : Nat) [NeZero n] (count : UInt32) : Fin n := Fin.ofNat n count.toNat

/-- The `len` elements from the count `head` on. -/
def ring (data : Fin n → α) (head : UInt32) (len : Nat) : List α :=
  (List.range len).map fun k => data (ringIndex n (head + UInt32.ofNat k))

@[simp] theorem length_ring (data : Fin n → α) (head : UInt32) (len : Nat) :
    (ring data head len).length = len := by
  simp [ring]

/-- The count that is `k` behind a count has the place that is `k` behind its place. -/
theorem ringIndex_add (divides : n ∣ 2 ^ 32) (head : UInt32) (k : Nat) :
    (ringIndex n (head + UInt32.ofNat k)).val = (head.toNat + k) % n := by
  show (head + UInt32.ofNat k).toNat % n = _
  rw [UInt32.toNat_add, UInt32.toNat_ofNat', Nat.mod_mod_of_dvd _ divides, Nat.add_mod,
    Nat.mod_mod_of_dvd _ divides, ← Nat.add_mod]

theorem ringIndex_ne (divides : n ∣ 2 ^ 32) (head : UInt32) {j k : Nat} (first : j < k)
    (second : k < n) :
    ringIndex n (head + UInt32.ofNat j) ≠ ringIndex n (head + UInt32.ofNat k) := by
  intro same
  have := congrArg Fin.val same
  rw [ringIndex_add divides, ringIndex_add divides] at this
  have apart : j % n = k % n := Nat.ModEq.add_left_cancel' head.toNat this
  rw [Nat.mod_eq_of_lt (first.trans second), Nat.mod_eq_of_lt second] at apart
  exact absurd apart first.ne

theorem take_ring (data : Fin n → α) (head : UInt32) {k len : Nat} (fewer : k ≤ len) :
    (ring data head len).take k = ring data head k := by
  unfold ring
  rw [← List.map_take, List.take_range, min_eq_left fewer]

/-- **An element is put at the end** of a ring that is not full. -/
theorem ring_push (divides : n ∣ 2 ^ 32) (data : Fin n → α) (head : UInt32) {len : Nat}
    (room : len < n) (x : α) :
    ring (update data (ringIndex n (head + UInt32.ofNat len)) x) head (len + 1) =
      ring data head len ++ [x] := by
  unfold ring
  rw [List.range_succ, List.map_append, List.map_singleton, update_self]
  congr 1
  refine List.map_congr_left fun k member => ?_
  exact update_of_ne (ringIndex_ne divides head (List.mem_range.mp member) room) _ _

theorem ring_pop (data : Fin n → α) (head : UInt32) (len : Nat) :
    ring data head (len + 1) = data (ringIndex n head) :: ring data (head + 1) len := by
  unfold ring
  rw [List.range_succ_eq_map, List.map_cons, List.map_map]
  congr 1
  · rw [show UInt32.ofNat 0 = 0 from rfl, UInt32.add_zero]
  · refine List.map_congr_left fun k _ => ?_
    show data (ringIndex n (head + UInt32.ofNat (k + 1))) = _
    rw [UInt32.ofNat_add, show UInt32.ofNat 1 = 1 from rfl, UInt32.add_comm (UInt32.ofNat k),
      ← UInt32.add_assoc]

end Xv6.Lib
