/-
**Locks told by where their holders are.**

A lock is the process that holds it, if any. `Held at' holds lk`: a process holds the lock `lk`
exactly while it is at a place where `holds` says so. The three rules are for a process that goes on
to another place: it takes the lock, gives it back, or does neither.
-/

import Mathlib.Logic.Function.Basic

namespace Xv6.Lib

open Function

variable {ι π : Type} {place : ι → π} {holds : π → Bool} {lk : Option ι} {i j : ι} {p : π}

/-- The processes that are at a place where the lock is held hold it, and no others. -/
def Held (place : ι → π) (holds : π → Bool) (lk : Option ι) : Prop :=
  ∀ i, holds (place i) = true ↔ lk = some i

theorem Held.eq (held : Held place holds lk) (first : holds (place i) = true)
    (second : holds (place j) = true) : i = j :=
  Option.some.inj (((held i).mp first).symm.trans ((held j).mp second))

theorem Held.free (held : Held place holds none) (i : ι) : holds (place i) = false := by
  rw [← Bool.not_eq_true, held]
  exact nofun

variable [DecidableEq ι]

theorem Held.take (held : Held place holds none) (i : ι) (taken : holds p = true) :
    Held (update place i p) holds (some i) := by
  intro j
  by_cases same : j = i
  · subst same
    rw [update_self]
    exact iff_of_true taken rfl
  · rw [update_of_ne same, held.free]
    exact iff_of_false Bool.false_ne_true fun here => same (Option.some.inj here).symm

theorem Held.give (held : Held place holds lk) (mine : holds (place i) = true)
    (given : holds p = false) : Held (update place i p) holds none := by
  intro j
  refine iff_of_false ?_ nofun
  by_cases same : j = i
  · subst same
    rw [update_self, given]
    exact Bool.false_ne_true
  · rw [update_of_ne same]
    exact fun also => same (held.eq also mine)

theorem Held.keep (held : Held place holds lk) (kept : holds p = holds (place i)) :
    Held (update place i p) holds lk := by
  intro j
  by_cases same : j = i
  · subst same
    rw [update_self, kept]
    exact held j
  · rw [update_of_ne same]
    exact held j

end Xv6.Lib
