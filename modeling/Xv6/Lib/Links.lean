/-
**Links between nodes, counted.**

A directed graph in which `E a b` counts the links from `a` to `b`. `into` counts the links to a
node, `outOf` those of a node to the nodes of one kind; `Added E E' d i` says that `E'` has one link
more, from `d` to `i`, and what that does to both counts. `Reaches` follows links; the nodes reached
through a node without links out are not affected when a link to it is removed.
-/

import Mathlib.Algebra.BigOperators.Group.Finset.Piecewise
import Mathlib.Algebra.Order.BigOperators.Group.Finset
import Mathlib.Logic.Relation
import Xv6.Lib.Bytes

namespace Xv6.Lib

open Finset Function

theorem sum_update_add {α β : Type*} [DecidableEq α] {s : Finset α} {a : α} (inside : a ∈ s)
    (F : β → ℕ) (g : α → β) (b : β) :
    ∑ x ∈ s, F (update g a b x) + F (g a) = ∑ x ∈ s, F (g x) + F b := by
  have others : ∑ x ∈ s.erase a, F (update g a b x) = ∑ x ∈ s.erase a, F (g x) :=
    sum_congr rfl fun x member => by rw [update_of_ne (ne_of_mem_erase member)]
  rw [← add_sum_erase s _ inside, ← add_sum_erase s (fun x => F (g x)) inside, others,
    update_self]
  omega

theorem countP_splice_one {α : Type*} {l : List α} {p : ℕ} (inside : p ≤ l.length) (x : α)
    (q : α → Bool) :
    (splice l p [x]).countP q + (l[p]?.elim 0 fun old => if q old then 1 else 0) =
      l.countP q + if q x then 1 else 0 := by
  unfold splice
  by_cases last : p = l.length
  · subst last
    have behind : l.drop (l.length + [x].length) = [] := List.drop_eq_nil_of_le (by simp)
    rw [List.take_length, behind, List.append_nil, List.countP_append, List.getElem?_eq_none le_rfl]
    simp [List.countP_cons]
  · have below : p < l.length := by omega
    have split : l.countP q = (l.take p).countP q + ((if q l[p] then 1 else 0) +
        (l.drop (p + 1)).countP q) := by
      conv_lhs => rw [← List.take_append_drop p l, List.drop_eq_getElem_cons below]
      rw [List.countP_append, List.countP_cons]
      omega
    rw [List.getElem?_eq_getElem below, List.countP_append, List.countP_append, split]
    simp only [List.countP_cons, List.countP_nil, List.length_singleton, Option.elim_some]
    omega

/-! ### Counts of links -/

section Links

variable {ι : Type*} {s : Finset ι} {E E' : ι → ι → ℕ} {d i j : ι}

/-- The links to a node. -/
def into (s : Finset ι) (E : ι → ι → ℕ) (i : ι) : ℕ := ∑ d ∈ s, E d i

/-- The links of a node to nodes of a kind. -/
def outOf (s : Finset ι) (kind : ι → Prop) [DecidablePred kind] (E : ι → ι → ℕ) (i : ι) : ℕ :=
  ∑ d ∈ s with kind d, E i d

theorem le_into (inside : d ∈ s) : E d i ≤ into s E i :=
  single_le_sum (f := fun d => E d i) (fun _ _ => Nat.zero_le _) inside

theorem le_outOf {kind : ι → Prop} [DecidablePred kind] (inside : d ∈ s) (of' : kind d) :
    E i d ≤ outOf s kind E i :=
  single_le_sum (f := fun d => E i d) (fun _ _ => Nat.zero_le _) (mem_filter.mpr ⟨inside, of'⟩)

theorem outOf_congr {kind kind' : ι → Prop} [DecidablePred kind] [DecidablePred kind']
    (same : ∀ d, 0 < E i d → (kind d ↔ kind' d)) : outOf s kind E i = outOf s kind' E i := by
  unfold outOf
  rw [sum_filter, sum_filter]
  refine sum_congr rfl fun d _ => ?_
  rcases Nat.eq_zero_or_pos (E i d) with none' | some'
  · rw [none', ite_self, ite_self]
  · simp only [same d some']

section Added

variable [DecidableEq ι]

/-- `E'` has one link more, from `d` to `i`. -/
def Added (E E' : ι → ι → ℕ) (d i : ι) : Prop :=
  ∀ a b, E' a b = E a b + if a = d ∧ b = i then 1 else 0

theorem Added.into (added : Added E E' d i) (inside : d ∈ s) (j : ι) :
    into s E' j = into s E j + if j = i then 1 else 0 := by
  unfold Lib.into
  have each : ∀ a ∈ s, E' a j = E a j + if a = d then (if j = i then 1 else 0) else 0 := by
    intro a _
    rw [added a j, ite_and]
  rw [sum_congr rfl each, sum_add_distrib, sum_ite_eq' s d, if_pos inside]

theorem Added.outOf {kind : ι → Prop} [DecidablePred kind] (added : Added E E' d i) (inside : i ∈ s)
    (j : ι) : outOf s kind E' j = outOf s kind E j + if j = d ∧ kind i then 1 else 0 := by
  unfold Lib.outOf
  have each :
      ∀ b ∈ s.filter kind, E' j b = E j b + if b = i then (if j = d then 1 else 0) else 0 := by
    intro b _
    rw [added j b]
    by_cases here : b = i <;> simp [here]
  rw [sum_congr rfl each, sum_add_distrib, sum_ite_eq' _ i]
  congr 1
  by_cases of' : kind i
  · rw [if_pos (mem_filter.mpr ⟨inside, of'⟩)]
    simp only [of', and_true]
  · rw [if_neg fun member => of' (mem_filter.mp member).2, if_neg fun both => of' both.2]

theorem Added.pos (added : Added E E' d i) {a b : ι} :
    0 < E' a b ↔ 0 < E a b ∨ a = d ∧ b = i := by
  rw [added a b]
  by_cases new : a = d ∧ b = i
  · rw [if_pos new]
    exact iff_of_true (Nat.succ_pos _) (.inr new)
  · rw [if_neg new, Nat.add_zero]
    exact (or_iff_left new).symm

end Added

/-! ### Reaching nodes -/

/-- The nodes that links lead to. -/
def Reaches (E : ι → ι → ℕ) (root : ι) : ι → Prop :=
  Relation.ReflTransGen (fun a b => 0 < E a b) root

theorem Reaches.mono {root : ι} (more : ∀ a b, 0 < E a b → 0 < E' a b)
    (reaches : Reaches E root i) : Reaches E' root i :=
  Relation.ReflTransGen.mono more _ _ reaches

/-- **No way through a node without links out**: one link to it less does not matter to the
others. -/
theorem Reaches.of_removed [DecidableEq ι] {root : ι} (added : Added E' E d i)
    (leaf : ∀ b, E i b = 0) (reaches : Reaches E root j) (other : j ≠ i) : Reaches E' root j := by
  induction reaches with
  | refl => exact .refl
  | @tail b c before link ih =>
    have between : b ≠ i := by
      rintro rfl
      exact absurd (leaf c) link.ne'
    refine (ih between).tail ?_
    rcases added.pos.mp link with old | ⟨_, rfl⟩
    · exact old
    · exact absurd rfl other

theorem Reaches.invariant {root : ι} {P : ι → Prop} (reaches : Reaches E root i) (start : P root)
    (along : ∀ a b, P a → 0 < E a b → P b) : P i := by
  induction reaches with
  | refl => exact start
  | tail _ link ih => exact along _ _ ih link

end Links

end Xv6.Lib
