/-
**Sole possession of what a free list hands out.**

Places hold things, at most one each; the things nobody holds may be on a free list. `Sole held
free` says that no thing is held twice and that nothing held is free. A thing that nobody holds may
be put at an empty place, and the thing at a place may be given back.
-/

import Mathlib.Data.List.Nodup
import Mathlib.Data.Set.Basic

namespace Xv6.Lib

variable {ι κ β : Type*}

/-- Nothing is held by two places, and nothing held is free. -/
structure Sole (held : ι → Option β) (free : List β) : Prop where
  inj : ∀ {x y b}, held x = some b → held y = some b → x = y
  used : ∀ {x b}, held x = some b → b ∉ free

namespace Sole

variable {held held' : ι → Option β} {free free' : List β}

theorem mono (sole : Sole held free) (fewer : ∀ b ∈ free', b ∈ free) : Sole held free' :=
  ⟨sole.inj, fun here listed => sole.used here (fewer _ listed)⟩

theorem adopt (sole : Sole held free) {x : ι} {b : β} (unheld : ∀ y, held y ≠ some b)
    (taken : b ∉ free) (here : held' x = some b) (elsewhere : ∀ y, y ≠ x → held' y = held y) :
    Sole held' free := by
  have old : ∀ {y c}, held' y = some c → c ≠ b → held y = some c := by
    intro y c holds other
    rw [← holds]
    refine (elsewhere y ?_).symm
    rintro rfl
    exact other (Option.some.inj (holds.symm.trans here))
  have only : ∀ {y}, held' y = some b → y = x := by
    intro y holds
    by_contra other
    exact unheld y ((elsewhere y other).symm.trans holds)
  refine ⟨fun {y z c} first second => ?_, fun {y c} holds listed => ?_⟩
  · by_cases same : c = b
    · subst same
      rw [only first, only second]
    · exact sole.inj (old first same) (old second same)
  · by_cases same : c = b
    · subst same
      exact taken listed
    · exact sole.used (old holds same) listed

theorem release (sole : Sole held free) {x : ι} {b : β} (was : held x = some b)
    (emptied : held' x = none) (elsewhere : ∀ y, y ≠ x → held' y = held y) :
    Sole held' (b :: free) := by
  have old : ∀ {y c}, held' y = some c → y ≠ x ∧ held y = some c := by
    intro y c holds
    have other : y ≠ x := by
      rintro rfl
      exact nomatch emptied.symm.trans holds
    exact ⟨other, (elsewhere y other).symm.trans holds⟩
  refine ⟨fun first second => sole.inj (old first).2 (old second).2, fun {y c} holds listed => ?_⟩
  obtain ⟨other, before⟩ := old holds
  rcases List.mem_cons.1 listed with rfl | listed
  · exact other (sole.inj before was)
  · exact sole.used before listed

end Sole

end Xv6.Lib
