/-
**A queue of linked nodes.**

The queue is a pointer to the first node; each node points to the next one. A node is appended by
the loop that walks a pointer to a pointer to the null pointer at the end. `Holds q l` says that the
pointers lead through the nodes of `l` and end there.
-/

import Mathlib.Data.List.Nodup
import Mathlib.Logic.Function.Basic

namespace Xv6.Lib

open Function

structure Queue (β : Type) where
  head : Option β
  next : β → Option β

namespace Queue

variable {β : Type} {q : Queue β} {l : List β} {b : β}

/-- The pointer stored at a place: in the queue itself, or in a node. -/
def cell (q : Queue β) : Option β → Option β
  | none => q.head
  | some b => q.next b

def setCell [DecidableEq β] (q : Queue β) : Option β → Option β → Queue β
  | none, p => { q with head := p }
  | some b, p => { q with next := update q.next b p }

/-- The loop to the place of the null pointer: `none` when it does not end in time. -/
def findEnd (q : Queue β) : Nat → Option β → Option (Option β)
  | 0, _ => none
  | fuel + 1, place =>
    match q.cell place with
    | none => some place
    | some b => q.findEnd fuel (some b)

/-- A node is appended. -/
def append [DecidableEq β] (q : Queue β) (fuel : Nat) (b : β) : Option (Queue β) :=
  let q := q.setCell (some b) none
  (q.findEnd fuel none).map fun place => q.setCell place (some b)

/-- The first node is taken off. -/
def pop (q : Queue β) (b : β) : Queue β := { q with head := q.next b }

/-- The pointers lead from `p` through `l`. -/
def Chain (next : β → Option β) : Option β → List β → Prop
  | p, [] => p = none
  | p, b :: l => p = some b ∧ Chain next (next b) l

def Holds (q : Queue β) (l : List β) : Prop := Chain q.next q.head l

theorem Chain.congr {next next' : β → Option β} {p : Option β} (same : ∀ b ∈ l, next' b = next b)
    (chain : Chain next p l) : Chain next' p l := by
  induction l generalizing p with
  | nil => exact chain
  | cons b l ih =>
    refine ⟨chain.1, ?_⟩
    rw [same b List.mem_cons_self]
    exact ih (fun b' member => same b' (List.mem_cons_of_mem _ member)) chain.2

theorem Holds.head_nil (holds : q.Holds []) : q.head = none := holds

theorem Holds.head_cons (holds : q.Holds (b :: l)) : q.head = some b := holds.1

theorem Holds.pop (holds : q.Holds (b :: l)) : (q.pop b).Holds l := holds.2

theorem findEnd_eq {place : Option β} {fuel : Nat} (chain : Chain q.next (q.cell place) l)
    (enough : l.length < fuel) : q.findEnd fuel place = some (l.getLast?.or place) := by
  induction l generalizing place fuel with
  | nil =>
    obtain ⟨fuel, rfl⟩ := Nat.exists_eq_succ_of_ne_zero (Nat.ne_of_gt enough)
    have null : q.cell place = none := chain
    unfold findEnd
    rw [null]
    rfl
  | cons b l ih =>
    obtain ⟨fuel, rfl⟩ := Nat.exists_eq_succ_of_ne_zero (Nat.ne_of_gt (Nat.zero_lt_of_lt enough))
    obtain ⟨here, rest⟩ := chain
    unfold findEnd
    rw [here, List.getLast?_cons]
    show q.findEnd fuel (some b) = some (some (l.getLast?.getD b))
    rw [@ih (some b) fuel rest (Nat.lt_of_succ_lt_succ enough)]
    cases l.getLast? <;> rfl

section Append

variable [DecidableEq β]

theorem Chain.snoc {next : β → Option β} {p : Option β} {a : β} (chain : Chain next p (l ++ [a]))
    (distinct : (l ++ [a]).Nodup) (fresh : b ∉ l ++ [a]) (null : next b = none) :
    Chain (update next a (some b)) p (l ++ [a] ++ [b]) := by
  induction l generalizing p with
  | nil =>
    refine ⟨chain.1, update_self .., ?_⟩
    show update next a (some b) b = none
    rw [update_of_ne fun same => fresh (List.mem_singleton.mpr same)]
    exact null
  | cons c l ih =>
    obtain ⟨apart, distinct'⟩ := List.nodup_cons.mp distinct
    have other : c ≠ a :=
      fun same => apart (same ▸ List.mem_append_right _ (List.mem_singleton_self _))
    refine ⟨chain.1, ?_⟩
    rw [update_of_ne other]
    exact ih chain.2 distinct' fun member => fresh (List.mem_cons_of_mem _ member)

theorem Holds.append (holds : q.Holds l) (distinct : l.Nodup) (fresh : b ∉ l) {fuel : Nat}
    (enough : l.length < fuel) : ∃ q', q.append fuel b = some q' ∧ q'.Holds (l ++ [b]) := by
  have null : (q.setCell (some b) none).next b = none := update_self ..
  have kept : Chain (q.setCell (some b) none).next q.head l := Chain.congr (fun b' member => by
    refine update_of_ne ?_ ..
    rintro rfl
    exact fresh member) holds
  unfold Queue.append
  simp only
  rw [findEnd_eq kept enough]
  refine ⟨_, rfl, ?_⟩
  rcases List.eq_nil_or_concat l with rfl | ⟨l, a, rfl⟩
  · exact ⟨rfl, null⟩
  · rw [List.concat_eq_append] at kept distinct fresh ⊢
    rw [List.getLast?_concat]
    exact kept.snoc distinct fresh null

end Append

end Queue

end Xv6.Lib
