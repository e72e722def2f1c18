/-
**Exact ownership.**

Places own things, at most one each; a thing is used or not. `Owns own used area` says that every
owned thing is used, that no thing has two owners, and that inside `area` every used thing has an
owner. Giving an unused thing to an empty place keeps it, and so does emptying any set of places and
marking what they owned unused.
-/

import Mathlib.Data.Set.Basic

namespace Xv6.Lib

variable {ι β : Type*}

/-- Owned things are used and have one owner; used things of `area` are owned. -/
structure Owns (own : ι → Option β) (used : β → Bool) (area : β → Prop) : Prop where
  used_of_own : ∀ {x b}, own x = some b → used b = true
  inj : ∀ {x y b}, own x = some b → own y = some b → x = y
  cover : ∀ {b}, area b → used b = true → ∃ x, own x = some b

namespace Owns

variable {own own' : ι → Option β} {used used' : β → Bool} {area : β → Prop}

theorem attach (owns : Owns own used area) {x : ι} {b : β} (empty : own x = none)
    (unused : used b = false) (here : own' x = some b) (elsewhere : ∀ y, y ≠ x → own' y = own y)
    (marked : ∀ c, used' c = true ↔ c = b ∨ used c = true) : Owns own' used' area := by
  classical
  have old : ∀ {y c}, y ≠ x → own' y = some c → own y = some c ∧ c ≠ b := by
    intro y c other owned
    rw [elsewhere y other] at owned
    refine ⟨owned, ?_⟩
    rintro rfl
    rw [owns.used_of_own owned] at unused
    cases unused
  have only : ∀ {y}, own' y = some b → y = x := by
    intro y owned
    by_contra other
    exact (old other owned).2 rfl
  refine ⟨?_, ?_, ?_⟩
  · intro y c owned
    by_cases same : y = x
    · subst same
      rw [here] at owned
      exact (marked c).mpr (.inl (Option.some.inj owned).symm)
    · exact (marked c).mpr (.inr (owns.used_of_own (old same owned).1))
  · intro y z c first second
    by_cases new : c = b
    · subst new
      rw [only first, only second]
    · have apart : ∀ {w}, own' w = some c → w ≠ x := by
        rintro w owned rfl
        rw [here] at owned
        exact new (Option.some.inj owned).symm
      exact owns.inj (old (apart first) first).1 (old (apart second) second).1
  · intro c inside use
    rcases (marked c).mp use with rfl | use
    · exact ⟨x, here⟩
    · obtain ⟨y, owned⟩ := owns.cover inside use
      refine ⟨y, ?_⟩
      rw [elsewhere y, owned]
      rintro rfl
      rw [empty] at owned
      cases owned

theorem release (owns : Owns own used area) (X : Set ι) (emptied : ∀ x ∈ X, own' x = none)
    (kept : ∀ x ∉ X, own' x = own x)
    (cleared : ∀ b, used' b = true ↔ used b = true ∧ ∀ x ∈ X, own x ≠ some b) :
    Owns own' used' area := by
  have old : ∀ {x b}, own' x = some b → x ∉ X ∧ own x = some b := by
    intro x b owned
    have outside : x ∉ X := by
      intro member
      rw [emptied x member] at owned
      cases owned
    exact ⟨outside, (kept x outside).symm.trans owned⟩
  refine ⟨?_, ?_, ?_⟩
  · intro x b owned
    refine (cleared b).mpr ⟨owns.used_of_own (old owned).2, ?_⟩
    intro y member owner
    exact (old owned).1 (owns.inj (old owned).2 owner ▸ member)
  · intro x y b first second
    exact owns.inj (old first).2 (old second).2
  · intro b inside use
    obtain ⟨before, unowned⟩ := (cleared b).mp use
    obtain ⟨x, owned⟩ := owns.cover inside before
    refine ⟨x, ?_⟩
    rw [kept x fun member => unowned x member owned, owned]

end Owns

end Xv6.Lib
