/-
**`growproc`: the size of a process changes by `n` bytes, or not at all.**

`growproc` takes the value 0 of `allocuvm` and `deallocuvm` for a failure, and adds `n` to the size
modulo `2 ^ 32`. Shrinking to size 0 therefore frees every page and reports failure with the size as
it was, and shrinking by more than the size does nothing and reports success.
-/

import Xv6.Vm.Alloc

namespace Xv6.Vm

open Lib

variable (K : Layout)

/-- `growproc`: memory, the size of the process and the value returned. -/
def growproc (s : Phys) (pgdir : Page) (sz : Nat) (n : Int) : Except Fault (Phys × Nat × Int) := do
  let sum := ((sz + n) % 2 ^ 32).toNat
  if n > 0 then
    let (s, r) ← s.allocuvm K pgdir sz sum
    return if r = 0 then (s, sz, -1) else (s, r, 0)
  else if n < 0 then
    let (s, r) ← s.deallocuvm K pgdir sz sum
    return if r = 0 then (s, sz, -1) else (s, r, 0)
  else return (s, sz, 0)

/-- **The call was exact**: it returned 0 and the size is `sz + n` with the pages to match, or it
returned -1 and the size and all user mappings are as before. -/
def ExactGrowth (s s' : Phys) (pgdir : Page) (sz sz' : Nat) (n r : Int) : Prop :=
  (r = 0 ∧ (sz' : Int) = sz + n ∧ MapsBelow s' pgdir sz') ∨
    (r = -1 ∧ sz' = sz ∧ ∀ v < UPAGES, mapping s'.mem pgdir v = mapping s.mem pgdir v)

variable {K} {s : Phys} {pgdir : Page}

theorem MapsBelow.shrink {oldsz newsz : Nat} (maps : MapsBelow s pgdir oldsz) (own : Own K s pgdir)
    (pool : Pool K s) (small : oldsz ≤ KERNBASE) (shrinks : newsz < oldsz) :
    ∃ s', s.deallocuvm K pgdir oldsz newsz = .ok (s', newsz) ∧ MapsBelow s' pgdir newsz ∧
      Cleared K s s' pgdir fun v => pages newsz ≤ v ∧ v < pages oldsz := by
  have small' : newsz ≤ KERNBASE := by omega
  have high := pages_le small
  have fewer := pages_mono (Nat.le_of_lt shrinks)
  obtain ⟨s', done, cleared⟩ := deallocuvm_spec own pool small shrinks
  have on : ∀ v, v < pages oldsz → present (entry s.mem pgdir v) = true :=
    fun v below => (maps.iff small (by omega)).2 below
  have cleared : Cleared K s s' pgdir fun v => pages newsz ≤ v ∧ v < pages oldsz := by
    refine cleared.congr fun v => ⟨fun range => ?_, fun gone => ⟨gone.1, gone.2.1⟩⟩
    obtain ⟨t, here⟩ := exists_table (on (pages newsz) (by omega))
    exact ⟨range.1, range.2, on v range.2, (not_skipped_of_table here).1⟩
  refine ⟨s', done, fun v low => ?_, cleared⟩
  rw [PGROUNDUP_eq small', Nat.mul_lt_mul_right (by decide)]
  by_cases gone : pages newsz ≤ v ∧ v < pages oldsz
  · rw [cleared.off v gone, present_zero]
    exact iff_of_false Bool.false_ne_true (Nat.not_lt.2 gone.1)
  · rw [cleared.on v gone, maps.iff small low]
    omega

section

variable {sz : Nat} {n : Int} (own : Own K s pgdir) (pool : Pool K s) (maps : MapsBelow s pgdir sz)
    (small : sz < KERNBASE)

include own pool maps small

theorem growproc_up (positive : 0 < n) (int : n < 2 ^ 31)
    (tables : sz + n < KERNBASE → s.Spared isUtable (allocPlan s pgdir sz (sz + n).toNat)) :
    ∃ s' sz' r, growproc K s pgdir sz n = .ok (s', sz', r) ∧ ExactGrowth s s' pgdir sz sz' n r := by
  have sum : ((sz + n) % 2 ^ 32).toNat = (sz + n).toNat := by
    unfold KERNBASE at small
    rw [Int.emod_eq_of_lt (by omega) (by omega)]
  unfold growproc
  simp only
  rw [if_pos positive, sum]
  by_cases fits : (sz + n).toNat < KERNBASE
  · obtain ⟨s', r, done, atomic⟩ :=
      allocuvm_atomic_iff own pool maps (show sz ≤ (sz + n).toNat by omega) fits
    rw [done, ok_bind]
    rcases atomic.2 (tables (by omega)) with ⟨rfl, grown⟩ | ⟨rfl, same, _⟩
    · refine ⟨s', (sz + n).toNat, 0, ?_, .inl ⟨rfl, by omega, grown.below⟩⟩
      simp only
      rw [if_neg (by omega)]
      rfl
    · exact ⟨s', sz, -1, rfl, .inr ⟨rfl, rfl, same⟩⟩
  · refine ⟨s, sz, -1, ?_, .inr ⟨rfl, rfl, fun _ _ => rfl⟩⟩
    unfold Phys.allocuvm
    rw [if_pos (by omega)]
    rfl

theorem growproc_down (negative : n < 0) (stays : 0 < sz + n) :
    ∃ s' sz' r, growproc K s pgdir sz n = .ok (s', sz', r) ∧ ExactGrowth s s' pgdir sz sz' n r := by
  have sum : ((sz + n) % 2 ^ 32).toNat = (sz + n).toNat := by
    unfold KERNBASE at small
    rw [Int.emod_eq_of_lt (by omega) (by omega)]
  obtain ⟨s', done, below, _⟩ :=
    maps.shrink own pool (Nat.le_of_lt small) (show (sz + n).toNat < sz by omega)
  refine ⟨s', (sz + n).toNat, 0, ?_, .inl ⟨rfl, by omega, below⟩⟩
  unfold growproc
  simp only
  rw [if_neg (by omega), if_pos negative, sum, done, ok_bind]
  simp only
  rw [if_neg (by omega)]
  rfl

theorem growproc_to_zero (positive : 0 < sz) (exactly : sz + n = 0) :
    ∃ s', growproc K s pgdir sz n = .ok (s', sz, -1) ∧ ¬ ExactGrowth s s' pgdir sz sz n (-1) := by
  have sum : ((sz + n) % 2 ^ 32).toNat = 0 := by rw [exactly]; rfl
  obtain ⟨s', done, below, _⟩ := maps.shrink own pool (Nat.le_of_lt small) positive
  refine ⟨s', ?_, ?_⟩
  · unfold growproc
    simp only
    rw [if_neg (by omega), if_pos (by omega), sum, done]
    rfl
  · rintro (⟨absurdity, _⟩ | ⟨_, _, same⟩)
    · exact absurd absurdity (by decide)
    · have low : 0 < UPAGES := by decide
      have was : present (entry s.mem pgdir 0) = true := by
        rw [maps.iff (Nat.le_of_lt small) low]
        unfold pages PGSIZE
        omega
      have gone : present (entry s'.mem pgdir 0) = false :=
        Bool.eq_false_iff.2 fun is => Nat.not_lt_zero _ ((below 0 low).1 is)
      have differ := same 0 low
      rw [mapping_none gone, mapping, if_pos was] at differ
      cases differ

end

theorem growproc_beyond (s : Phys) (pgdir : Page) {sz : Nat} {n : Int} (small : sz < KERNBASE)
    (positive : 0 < sz) (beyond : sz + n < 0) (int : -2 ^ 31 ≤ n) :
    growproc K s pgdir sz n = .ok (s, sz, 0) ∧ ¬ ExactGrowth s s pgdir sz sz n 0 := by
  have sum : sz ≤ ((sz + n) % 2 ^ 32).toNat := by
    unfold KERNBASE at small
    omega
  constructor
  · unfold growproc
    simp only
    rw [if_neg (by omega), if_pos (by omega), Phys.deallocuvm, if_pos sum, ok_bind]
    simp only
    rw [if_neg (by omega)]
    rfl
  · rintro (⟨_, size, _⟩ | ⟨absurdity, _⟩)
    · omega
    · exact absurd absurdity (by decide)

/-- **`growproc` is exact, page tables never being refused, exactly when the process has no memory
or keeps some.** -/
theorem growproc_exact_iff {sz : Nat} {n : Int} (own : Own K s pgdir) (pool : Pool K s)
    (maps : MapsBelow s pgdir sz) (small : sz < KERNBASE) (int : -2 ^ 31 ≤ n ∧ n < 2 ^ 31)
    (tables : sz + n < KERNBASE → s.Spared isUtable (allocPlan s pgdir sz (sz + n).toNat)) :
    ∃ s' sz' r, growproc K s pgdir sz n = .ok (s', sz', r) ∧
      (ExactGrowth s s' pgdir sz sz' n r ↔ sz = 0 ∨ 0 < sz + n) := by
  rcases Int.lt_trichotomy n 0 with negative | rfl | positive
  · by_cases empty : sz = 0
    · subst empty
      refine ⟨s, 0, -1, ?_, iff_of_true (.inr ⟨rfl, rfl, fun _ _ => rfl⟩) (.inl rfl)⟩
      unfold growproc
      simp only
      rw [if_neg (by omega), if_pos negative, Phys.deallocuvm, if_pos (Nat.zero_le _)]
      rfl
    · rcases Int.lt_trichotomy (sz + n) 0 with beyond | exactly | stays
      · obtain ⟨done, inexact⟩ := growproc_beyond (K := K) s pgdir small (by omega) beyond int.1
        exact ⟨s, sz, 0, done, iff_of_false inexact (by omega)⟩
      · obtain ⟨s', done, inexact⟩ := growproc_to_zero own pool maps small (by omega) exactly
        exact ⟨s', sz, -1, done, iff_of_false inexact (by omega)⟩
      · obtain ⟨s', sz', r, done, exact'⟩ := growproc_down own pool maps small negative stays
        exact ⟨s', sz', r, done, iff_of_true exact' (.inr stays)⟩
  · refine ⟨s, sz, 0, rfl, iff_of_true (.inl ⟨rfl, by omega, maps⟩) (by omega)⟩
  · obtain ⟨s', sz', r, done, exact'⟩ := growproc_up own pool maps small positive int.2 tables
    exact ⟨s', sz', r, done, iff_of_true exact' (.inr (by omega))⟩

/-- A process without memory grows by a page, which is then mapped. -/
theorem growproc_exact_iff_page : ∃ s', growproc smallKernel (bare [0x401, 0x402]) 0x400 0 0x1000 =
      .ok (s', 0x1000, 0) ∧ present (entry s'.mem 0x400 0) = true ∧
    ExactGrowth (bare [0x401, 0x402]) s' 0x400 0 0x1000 0x1000 0 := by
  obtain ⟨s', sz', r, done, exact'⟩ := growproc_exact_iff (own_bare (by decide)) pool_bare
    (mapsBelow_bare _) (by decide)
      (show -2 ^ 31 ≤ (0x1000 : Int) ∧ (0x1000 : Int) < 2 ^ 31 by decide)
    (fun _ => by decide)
  obtain ⟨x, done', mapped⟩ := exists_of_endsIn
    (x := growproc smallKernel (bare [0x401, 0x402]) 0x400 0 0x1000)
    (P := fun x => decide (x.2 = (0x1000, 0) ∧ present (entry x.1.mem 0x400 0) = true)) (by decide)
  cases done.symm.trans done'
  obtain ⟨same, mapped⟩ := of_decide_eq_true mapped
  cases same
  exact ⟨s', done, mapped, exact'.2 (.inl rfl)⟩

/-- A process of one page gives it back and is told that it failed. -/
theorem growproc_frees_and_fails :
    ∃ s', growproc smallKernel (oneTable 0) 0x400 0x1000 (-0x1000) = .ok (s', 0x1000, -1) ∧
    present (entry (oneTable 0).mem 0x400 0) = true ∧ present (entry s'.mem 0x400 0) = false ∧
    ¬ ExactGrowth (oneTable 0) s' 0x400 0x1000 0x1000 (-0x1000) (-1) := by
  let s' :=
    ({ (oneTable 0).fill 0x402 (fun _ => 0x01010101) with free := [0x402] } : Phys).set 0x401 0 0
  have was : present (entry (oneTable 0).mem 0x400 0) = true := by decide
  have gone : present (entry s'.mem 0x400 0) = false := by decide
  refine ⟨s', rfl, was, gone, ?_⟩
  rintro (⟨absurdity, _⟩ | ⟨_, _, same⟩)
  · exact absurd absurdity (by decide)
  · have differ := same 0 (by decide)
    rw [mapping_none gone, mapping, if_pos was] at differ
    cases differ

end Xv6.Vm
