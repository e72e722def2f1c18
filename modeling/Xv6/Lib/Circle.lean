/-
**Circular doubly linked lists.**

`Links` are the `next` and `prev` fields of all nodes. `Circle k head l` says that from `head` the
`next` links lead through the nodes `l`, each once, back to `head`, and that the `prev` links lead
back. A node is taken out and put behind the head by the usual assignments to the fields around it,
and a loop along the links finds what `List.find?` finds.
-/

import Mathlib.Data.List.Nodup
import Mathlib.Logic.Function.Basic

namespace Xv6.Lib

open Function

/-- The links of the nodes. -/
structure Links (α : Type) where
  next : α → α
  prev : α → α

namespace Links

variable {α : Type}

section Assignments

variable [DecidableEq α]

def setNext (k : Links α) (a b : α) : Links α := { k with next := update k.next a b }

def setPrev (k : Links α) (a b : α) : Links α := { k with prev := update k.prev a b }

/-- `b->next->prev = b->prev; b->prev->next = b->next`. -/
def unlink (k : Links α) (b : α) : Links α :=
  let k := k.setPrev (k.next b) (k.prev b)
  k.setNext (k.prev b) (k.next b)

/-- `b->next = head.next; b->prev = &head; head.next->prev = b; head.next = b`. -/
def push (k : Links α) (head b : α) : Links α :=
  let k := k.setNext b (k.next head)
  let k := k.setPrev b head
  let k := k.setPrev (k.next head) b
  k.setNext head b

/-- A loop over the nodes from `a` on, up to `stop`; at most `fuel` turns. -/
def scan (step : α → α) (stop : α) (P : α → Bool) : Nat → α → Option α
  | 0, _ => none
  | fuel + 1, a => if a = stop then none else if P a then some a else scan step stop P fuel (step a)

end Assignments

/-- The links lead from `a` through `l` to `b`, and back. -/
def Path (k : Links α) : α → List α → α → Prop
  | a, [], b => k.next a = b ∧ k.prev b = a
  | a, x :: l, b => (k.next a = x ∧ k.prev x = a) ∧ k.Path x l b

/-- **The circle** through the head and the nodes `l`. -/
structure Circle (k : Links α) (head : α) (l : List α) : Prop where
  path : k.Path head l head
  nodup : (head :: l).Nodup

variable {k k' : Links α} {a b x head : α} {l l₁ l₂ : List α}

/-! ### Paths -/

theorem path_append : k.Path a (l₁ ++ x :: l₂) b ↔ k.Path a l₁ x ∧ k.Path x l₂ b := by
  induction l₁ generalizing a with
  | nil => rfl
  | cons y l₁ ih =>
    show (_ ∧ k.Path y (l₁ ++ x :: l₂) b) ↔ (_ ∧ k.Path y l₁ x) ∧ _
    rw [ih]
    exact and_assoc.symm

theorem Path.next_mem (path : k.Path a l b) : k.next a ∈ l ++ [b] := by
  cases l with
  | nil => exact List.mem_singleton.mpr path.1
  | cons y l => exact path.1.1 ▸ List.mem_cons_self

theorem Path.prev_mem (path : k.Path a l b) : k.prev b ∈ a :: l := by
  induction l generalizing a with
  | nil => exact path.2 ▸ List.mem_cons_self
  | cons y l ih => exact List.mem_cons_of_mem _ (ih path.2)

theorem Path.congr (path : k.Path a l b) (nexts : ∀ y ∈ a :: l, k'.next y = k.next y)
    (prevs : ∀ y ∈ l ++ [b], k'.prev y = k.prev y) : k'.Path a l b := by
  induction l generalizing a with
  | nil =>
    exact ⟨(nexts a List.mem_cons_self).trans path.1, (prevs b List.mem_cons_self).trans path.2⟩
  | cons y l ih =>
    obtain ⟨⟨next, prev⟩, rest⟩ := path
    refine ⟨⟨(nexts a List.mem_cons_self).trans next, (prevs y List.mem_cons_self).trans prev⟩, ?_⟩
    exact ih rest (fun z member => nexts z (List.mem_cons_of_mem _ member))
      fun z member => prevs z (List.mem_cons_of_mem _ member)

theorem Path.reverse (path : k.Path a l b) : (Links.mk k.prev k.next).Path b l.reverse a := by
  induction l generalizing a with
  | nil => exact ⟨path.2, path.1⟩
  | cons y l ih =>
    obtain ⟨⟨next, prev⟩, rest⟩ := path
    rw [List.reverse_cons]
    exact path_append.mpr ⟨ih rest, prev, next⟩

theorem Path.join (front : k.Path a l₁ x) (back : k.Path x l₂ b)
    (distinct : (a :: (l₁ ++ l₂)).Nodup) (apart : b ∉ l₁ ++ l₂)
    (next : k'.next (k.prev x) = k.next x) (prev : k'.prev (k.next x) = k.prev x)
    (nexts : ∀ y, y ≠ k.prev x → k'.next y = k.next y)
    (prevs : ∀ y, y ≠ k.next x → k'.prev y = k.prev y) : k'.Path a (l₁ ++ l₂) b := by
  induction l₁ generalizing a with
  | nil =>
    rw [List.nil_append] at distinct apart ⊢
    rw [front.2] at next prev nexts
    cases l₂ with
    | nil =>
      rw [back.1] at next prev
      exact ⟨next, prev⟩
    | cons z l₂ =>
      obtain ⟨⟨here, _⟩, rest⟩ := back
      rw [here] at next prev prevs
      refine ⟨⟨next, prev⟩, rest.congr (fun y member => nexts y ?_) fun y member => prevs y ?_⟩
      · rintro rfl
        exact (List.nodup_cons.mp distinct).1 member
      · rintro rfl
        rcases List.mem_append.mp member with member | member
        · exact (List.nodup_cons.mp (List.nodup_cons.mp distinct).2).1 member
        · exact apart (List.mem_singleton.mp member ▸ List.mem_cons_self)
  | cons w l₁ ih =>
    obtain ⟨⟨next', prev'⟩, rest⟩ := front
    obtain ⟨first, others⟩ := List.nodup_cons.mp distinct
    refine ⟨⟨(nexts a ?_).trans next', (prevs w ?_).trans prev'⟩, ih rest others fun member =>
      apart (List.mem_cons_of_mem _ member)⟩
    · rintro rfl
      refine first ?_
      rw [List.cons_append, ← List.cons_append]
      exact List.mem_append_left _ rest.prev_mem
    · rintro rfl
      rcases List.mem_append.mp back.next_mem with member | member
      · exact (List.nodup_cons.mp others).1 (List.mem_append_right _ member)
      · exact apart (List.mem_singleton.mp member ▸ List.mem_cons_self)

variable [DecidableEq α]

theorem Circle.unlink (circle : k.Circle head (l₁ ++ x :: l₂)) :
    (k.unlink x).Circle head (l₁ ++ l₂) := by
  obtain ⟨path, nodup⟩ := circle
  obtain ⟨front, back⟩ := path_append.mp path
  have fewer : (head :: (l₁ ++ l₂)).Sublist (head :: (l₁ ++ x :: l₂)) :=
    ((List.sublist_cons_self x l₂).append_left l₁).cons_cons head
  have distinct := nodup.sublist fewer
  -- Its own links are not those that change first.
  have other : x ≠ k.next x := by
    intro self
    have member := back.next_mem
    rw [← self] at member
    obtain ⟨outside, rest⟩ := List.nodup_cons.mp nodup
    rcases List.mem_append.mp member with member | member
    · exact (List.nodup_cons.mp (List.nodup_append.mp rest).2.1).1 member
    · exact outside (List.mem_singleton.mp member ▸ List.mem_append_right _ List.mem_cons_self)
  have prev : (k.unlink x).prev = update k.prev (k.next x) (k.prev x) := rfl
  have next : (k.unlink x).next = update k.next (k.prev x) (k.next x) := by
    show update k.next (update k.prev (k.next x) (k.prev x) x) (k.next x) = _
    rw [update_of_ne other]
  refine ⟨front.join back distinct (List.nodup_cons.mp distinct).1 ?_ ?_ (fun y differs => ?_)
    fun y differs => ?_, distinct⟩
  · rw [next, update_self]
  · rw [prev, update_self]
  · rw [next, update_of_ne differs]
  · rw [prev, update_of_ne differs]

theorem Circle.push (circle : k.Circle head l) (new : x ∉ head :: l) :
    (k.push head x).Circle head (x :: l) := by
  obtain ⟨path, nodup⟩ := circle
  obtain ⟨other, fresh⟩ := List.ne_and_not_mem_of_not_mem_cons new
  have first : update k.next x (k.next head) head = k.next head := update_of_ne other.symm ..
  have next : (k.push head x).next = update (update k.next x (k.next head)) head x := rfl
  have prev : (k.push head x).prev = update (update k.prev x head) (k.next head) x := by
    show update (update k.prev x head) (update k.next x (k.next head) head) x = _
    rw [first]
  have apart : x ≠ k.next head := by
    intro same
    rcases List.mem_append.mp path.next_mem with member | member
    · exact fresh (same ▸ member)
    · exact other (same.trans (List.mem_singleton.mp member))
  have here : (k.push head x).next x = k.next head := by
    rw [next, update_of_ne other, update_self]
  have back : (k.push head x).prev (k.next head) = x := by rw [prev, update_self]
  refine ⟨⟨⟨?_, ?_⟩, ?_⟩, ?_⟩
  · rw [next, update_self]
  · rw [prev, update_of_ne apart, update_self]
  · cases l with
    | nil =>
      rw [path.1] at here back
      exact ⟨here, back⟩
    | cons z l =>
      obtain ⟨⟨toFirst, _⟩, rest⟩ := path
      rw [toFirst] at here back prev
      obtain ⟨outside, distinct⟩ := List.nodup_cons.mp nodup
      refine ⟨⟨here, back⟩, rest.congr (fun y member => ?_) fun y member => ?_⟩
      · have notHead : y ≠ head := fun same => outside (same ▸ member)
        have notNew : y ≠ x := fun same => fresh (same ▸ member)
        rw [next, update_of_ne notHead, update_of_ne notNew]
      · have notFirst : y ≠ z := by
          rintro rfl
          rcases List.mem_append.mp member with member | member
          · exact (List.nodup_cons.mp distinct).1 member
          · exact outside (List.mem_singleton.mp member ▸ List.mem_cons_self)
        have notNew : y ≠ x := by
          rintro rfl
          rcases List.mem_append.mp member with member | member
          · exact fresh (List.mem_cons_of_mem _ member)
          · exact other (List.mem_singleton.mp member)
        rw [prev, update_of_ne notFirst, update_of_ne notNew]
  · obtain ⟨outside, distinct⟩ := List.nodup_cons.mp nodup
    refine List.nodup_cons.mpr ⟨?_, List.nodup_cons.mpr ⟨fresh, distinct⟩⟩
    rw [List.mem_cons, not_or]
    exact ⟨other.symm, outside⟩

/-! ### Loops -/

theorem Path.scan (path : k.Path a l b) (apart : b ∉ l) (P : α → Bool) {fuel : Nat}
    (enough : l.length < fuel) : scan k.next b P fuel (k.next a) = l.find? P := by
  induction l generalizing a fuel with
  | nil =>
    obtain ⟨fuel, rfl⟩ := Nat.exists_eq_succ_of_ne_zero (Nat.ne_zero_of_lt enough)
    rw [path.1]
    exact if_pos rfl
  | cons y l ih =>
    obtain ⟨fuel, rfl⟩ := Nat.exists_eq_succ_of_ne_zero (Nat.ne_zero_of_lt enough)
    obtain ⟨⟨next, _⟩, rest⟩ := path
    obtain ⟨differs, outside⟩ := List.ne_and_not_mem_of_not_mem_cons apart
    rw [next, Links.scan, if_neg (Ne.symm differs), List.find?_cons]
    by_cases found : P y = true
    · rw [if_pos found, found]
    · rw [if_neg found, Bool.eq_false_iff.mpr found]
      exact ih rest outside (Nat.lt_of_succ_lt_succ enough)

theorem Circle.scan_next (circle : k.Circle head l) (P : α → Bool) {fuel : Nat}
    (enough : l.length < fuel) : scan k.next head P fuel (k.next head) = l.find? P :=
  circle.path.scan (List.nodup_cons.mp circle.nodup).1 P enough

theorem Circle.scan_prev (circle : k.Circle head l) (P : α → Bool) {fuel : Nat}
    (enough : l.length < fuel) : scan k.prev head P fuel (k.prev head) = l.reverse.find? P := by
  refine circle.path.reverse.scan ?_ P (by rwa [List.length_reverse])
  rw [List.mem_reverse]
  exact (List.nodup_cons.mp circle.nodup).1

end Links

end Xv6.Lib
