/-
**Sequences of writes to a store, cut off anywhere.**

A store is a function from addresses to values; `applyWrites` performs a list of writes in order. A
crash keeps a prefix of the list. What an address holds afterwards depends on the writes to it
alone: none of them, or, when the addresses are distinct, its own. Both hold for every prefix.
-/

import Mathlib.Data.List.Nodup
import Mathlib.Logic.Function.Basic

namespace Xv6.Lib

open Function

variable {α β : Type} [DecidableEq α]

/-- The store after a list of writes, performed in order. -/
def applyWrites (store : α → β) (writes : List (α × β)) : α → β :=
  writes.foldl (fun store w => update store w.1 w.2) store

@[simp] theorem applyWrites_nil (store : α → β) : applyWrites store [] = store := rfl

theorem applyWrites_cons (store : α → β) (w : α × β) (writes : List (α × β)) :
    applyWrites store (w :: writes) = applyWrites (update store w.1 w.2) writes := rfl

theorem applyWrites_append (store : α → β) (first second : List (α × β)) :
    applyWrites store (first ++ second) = applyWrites (applyWrites store first) second := by
  unfold applyWrites
  rw [List.foldl_append]

theorem applyWrites_snoc (store : α → β) (writes : List (α × β)) (x : α) (v : β) :
    applyWrites store (writes ++ [(x, v)]) = update (applyWrites store writes) x v := by
  rw [applyWrites_append]
  rfl

theorem applyWrites_of_notMem {writes : List (α × β)} {x : α}
    (untouched : ∀ w ∈ writes, w.1 ≠ x) (store : α → β) : applyWrites store writes x = store x := by
  induction writes generalizing store with
  | nil => rfl
  | cons w writes ih =>
    rw [applyWrites_cons, ih (fun v member => untouched v (List.mem_cons_of_mem _ member)),
      update_of_ne (untouched w List.mem_cons_self).symm]

theorem applyWrites_of_same {writes : List (α × β)} {x : α} {v : β}
    (same : ∀ w ∈ writes, w.1 = x → w.2 = v) {store : α → β} (old : store x = v) :
    applyWrites store writes x = v := by
  induction writes generalizing store with
  | nil => exact old
  | cons w writes ih =>
    rw [applyWrites_cons]
    refine ih (fun u member => same u (List.mem_cons_of_mem _ member)) ?_
    by_cases here : x = w.1
    · rw [here, update_self]
      exact same w List.mem_cons_self here.symm
    · rw [update_of_ne here]
      exact old

theorem applyWrites_of_mem {writes : List (α × β)} (distinct : (writes.map Prod.fst).Nodup)
    {w : α × β} (member : w ∈ writes) (store : α → β) : applyWrites store writes w.1 = w.2 := by
  induction writes generalizing store with
  | nil => cases member
  | cons v writes ih =>
    rw [List.map_cons, List.nodup_cons] at distinct
    rw [applyWrites_cons]
    rcases List.mem_cons.mp member with rfl | later
    · rw [applyWrites_of_notMem, update_self]
      intro u inside same
      exact distinct.1 (same ▸ List.mem_map_of_mem inside)
    · exact ih distinct.2 later _

end Xv6.Lib
