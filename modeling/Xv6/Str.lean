/-
**The string functions of `string.c` that names go through.**

A `char *` is the list of the bytes from it on; past the end of the list the bytes are `0`.
`strncmp` compares what `strncpy` would copy, so two names are the same directory entry exactly when
their copies are equal.
-/

import Mathlib.Data.List.Basic
import Xv6.Param

namespace Xv6

/-- The bytes of a text. -/
def bytes (text : List Char) : List UInt8 := text.map Char.toUInt8

def newline : UInt8 := '\n'.toUInt8

/-- `strncmp`. -/
def strncmp : List UInt8 → List UInt8 → Nat → Int
  | _, _, 0 => 0
  | p, q, n + 1 =>
    if p.headD 0 ≠ 0 ∧ p.headD 0 = q.headD 0 then strncmp p.tail q.tail n
    else (p.headD 0).toNat - (q.headD 0).toNat

/-- `strncpy`: the `n` bytes stored. -/
def strncpy : List UInt8 → Nat → List UInt8
  | _, 0 => []
  | t, n + 1 =>
    if t.headD 0 = 0 then List.replicate (n + 1) 0 else t.headD 0 :: strncpy t.tail n

/-- The loop of `safestrcpy`, with `n` bytes left but for the last, and the store after it: what the
destination `s` becomes. -/
def safestrcpyLoop : List UInt8 → List UInt8 → Nat → List UInt8
  | s, _, 0 => 0 :: s.tail
  | s, t, n + 1 =>
    t.headD 0 :: if t.headD 0 = 0 then 0 :: s.tail.tail else safestrcpyLoop s.tail t.tail n

/-- `safestrcpy`. -/
def safestrcpy (s t : List UInt8) (n : Nat) : List UInt8 :=
  if n = 0 then s else safestrcpyLoop s t (n - 1)

/-- `namecmp`. -/
def namecmp (s t : List UInt8) : Int := strncmp s t DIRSIZ

theorem strncpy_succ (t : List UInt8) (n : Nat) : strncpy t (n + 1) =
    if t.headD 0 = 0 then List.replicate (n + 1) 0 else t.headD 0 :: strncpy t.tail n := rfl

theorem length_strncpy (t : List UInt8) (n : Nat) : (strncpy t n).length = n := by
  induction n generalizing t with
  | zero => rfl
  | succ n ih =>
    unfold strncpy
    split
    · exact List.length_replicate
    · rw [List.length_cons, ih]

theorem strncmp_eq_zero {p q : List UInt8} {n : Nat} :
    strncmp p q n = 0 ↔ strncpy p n = strncpy q n := by
  induction n generalizing p q with
  | zero => exact iff_of_true rfl rfl
  | succ n ih =>
    have differ : ((p.headD 0).toNat - (q.headD 0).toNat : Int) = 0 ↔ p.headD 0 = q.headD 0 := by
      rw [Int.sub_eq_zero, Int.natCast_inj, UInt8.toNat_inj]
    unfold strncmp strncpy
    by_cases ends : p.headD 0 = 0
    · rw [if_neg fun both => both.1 ends, differ, if_pos ends]
      constructor
      · intro same
        rw [if_pos (same.symm.trans ends)]
      · intro same
        by_cases other : q.headD 0 = 0
        · rw [ends, other]
        · rw [if_neg other, List.replicate_succ] at same
          exact (other (List.cons.inj same).1.symm).elim
    · rw [if_neg ends]
      by_cases same : p.headD 0 = q.headD 0
      · rw [if_pos ⟨ends, same⟩, ih, if_neg (same ▸ ends), ← same]
        exact ⟨fun rest => by rw [rest], fun whole => (List.cons.inj whole).2⟩
      · rw [if_neg fun both => same both.2, differ]
        refine iff_of_false same ?_
        by_cases other : q.headD 0 = 0
        · rw [if_pos other, List.replicate_succ]
          exact fun whole => ends (List.cons.inj whole).1
        · rw [if_neg other]
          exact fun whole => same (List.cons.inj whole).1

theorem namecmp_eq_zero {s t : List UInt8} :
    namecmp s t = 0 ↔ strncpy s DIRSIZ = strncpy t DIRSIZ := strncmp_eq_zero

theorem strncpy_strncpy (t : List UInt8) (n : Nat) : strncpy (strncpy t n) n = strncpy t n := by
  induction n generalizing t with
  | zero => rfl
  | succ n ih =>
    rw [strncpy_succ t]
    by_cases ends : t.headD 0 = 0
    · rw [if_pos ends, strncpy_succ, List.replicate_succ, List.headD_cons, if_pos rfl]
    · rw [if_neg ends, strncpy_succ, List.headD_cons, if_neg ends, List.tail_cons, ih]

theorem strncpy_inj {s t : List UInt8} (cleanS : 0 ∉ s) (cleanT : 0 ∉ t) {n : Nat} :
    strncpy s n = strncpy t n ↔ s.take n = t.take n := by
  induction n generalizing s t with
  | zero => simp [strncpy]
  | succ n ih =>
    unfold strncpy
    cases s with
    | nil =>
      cases t with
      | nil => simp
      | cons b t =>
        have other : b ≠ 0 := fun zero => cleanT (zero ▸ List.mem_cons_self)
        simp [other, List.replicate_succ, other.symm]
    | cons a s =>
      have first : a ≠ 0 := fun zero => cleanS (zero ▸ List.mem_cons_self)
      cases t with
      | nil => simp [first, List.replicate_succ]
      | cons b t =>
        have other : b ≠ 0 := fun zero => cleanT (zero ▸ List.mem_cons_self)
        have rest := ih (fun zero => cleanS (List.mem_cons_of_mem a zero))
          fun zero => cleanT (List.mem_cons_of_mem b zero)
        simp [first, other, rest]

end Xv6
