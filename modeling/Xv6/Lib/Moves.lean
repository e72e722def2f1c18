/-
**Cells copied one after the other.**

A move copies one cell over another; in a list of moves each reads what the ones before it left.
Where no move reads or writes a cell that an earlier one wrote (`Settled`), every target ends with
what its source held at the start, whatever the targets and the sources have in common. A cell that
is no target is unchanged.
-/

import Mathlib.Data.List.Pairwise
import Mathlib.Logic.Function.Basic

namespace Xv6.Lib

open Function

variable {α β : Type*} [DecidableEq α] {m : α → β} {p : α × α} {l : List (α × α)} {x : α}

/-- The cell `p.2` is copied over the cell `p.1`. -/
def move (m : α → β) (p : α × α) : α → β := update m p.1 (m p.2)

/-- The moves of a list, in order. -/
def moves (m : α → β) (l : List (α × α)) : α → β := l.foldl move m

theorem moves_cons : moves m (p :: l) = moves (move m p) l := rfl

theorem moves_append (l' : List (α × α)) : moves m (l ++ l') = moves (moves m l) l' :=
  List.foldl_append

/-- No move reads or writes what an earlier one wrote. -/
def Settled (l : List (α × α)) : Prop := l.Pairwise fun p q => q.2 ≠ p.1 ∧ q.1 ≠ p.1

theorem moves_of_not_mem (none : ∀ p ∈ l, x ≠ p.1) : moves m l x = m x := by
  induction l generalizing m with
  | nil => rfl
  | cons p l ih =>
    rw [moves_cons, ih fun q member => none q (List.mem_cons_of_mem p member)]
    exact update_of_ne (none p List.mem_cons_self) _ _

theorem moves_of_mem (settled : Settled l) (member : p ∈ l) : moves m l p.1 = m p.2 := by
  induction l generalizing m with
  | nil => exact absurd member List.not_mem_nil
  | cons q l ih =>
    obtain ⟨first, rest⟩ := List.pairwise_cons.mp settled
    rw [moves_cons]
    rcases List.mem_cons.mp member with rfl | later
    · rw [moves_of_not_mem fun q member => (first q member).2.symm]
      exact update_self _ _ _
    · rw [ih rest later]
      exact update_of_ne (first p later).1 _ _

end Xv6.Lib
