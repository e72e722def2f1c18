/-
**`freevm`: every page of a directory is given back.**

`freevm` unmaps the user part, from address 0 on so that nothing is stepped over, then frees the
page tables and at last the directory. `Freed` says that the free pages are now those that were free
and those the directory held.
-/

import Xv6.Vm.Setup

namespace Xv6.Vm

open Lib

variable {K : Layout} {s s' s'' : Phys} {pgdir : Page}

/-- **The pages `gone` were freed**, and nothing else changed. -/
structure Freed (K : Layout) (s s' : Phys) (gone : Page → Prop) : Prop where
  free : ∀ q, q ∈ s'.free ↔ q ∈ s.free ∨ gone q
  kept : ∀ q, ¬ gone q → s'.mem q = s.mem q
  calls : s'.calls = s.calls
  deny : s'.deny = s.deny
  pool : Pool K s'

theorem Freed.trans {gone gone' : Page → Prop} (first : Freed K s s' gone)
    (second : Freed K s' s'' gone') : Freed K s s'' fun q => gone q ∨ gone' q where
  free q := by rw [second.free, first.free, or_assoc]
  kept q not := by rw [second.kept q fun is => not (.inr is), first.kept q fun is => not (.inl is)]
  calls := second.calls.trans first.calls
  deny := second.deny.trans first.deny
  pool := second.pool

theorem Freed.congr {gone gone' : Page → Prop} (freed : Freed K s s' gone)
    (same : ∀ q, gone' q ↔ gone q) : Freed K s s' gone' := by
  have alike : gone' = gone := funext fun q => propext (same q)
  rwa [alike]

theorem Freed.none (pool : Pool K s) {gone : Page → Prop} (nothing : ∀ q, ¬ gone q) :
    Freed K s s gone :=
  ⟨fun q => (or_iff_left (nothing q)).symm, fun _ _ => rfl, rfl, rfl, pool⟩

theorem kfree_ok (pool : Pool K s) {p : Page} (valid : K.Valid p) (used : p ∉ s.free) :
    ∃ s', s.kfree K p = .ok s' ∧ Freed K s s' (· = p) := by
  refine ⟨_, if_pos valid, fun q => ?_, fun q other => Function.update_of_ne other _ _, rfl,
    rfl, ?_, ?_⟩
  · show q ∈ p :: s.free ↔ _
    rw [List.mem_cons, or_comm]
  · exact List.nodup_cons.2 ⟨used, pool.nodup⟩
  · intro q mem
    rcases List.mem_cons.1 mem with rfl | mem
    · exact valid
    · exact pool.valid q mem

theorem freeTables_ok (n : Nat) (s : Phys) (i : Nat) (count : i + n = NPDENTRIES) (pool : Pool K s)
    (own : ∀ e t, i ≤ e → table s.mem pgdir e = some t → t ∉ s.free ∧ K.Valid t ∧ t ≠ pgdir)
    (inj : ∀ e e' t, table s.mem pgdir e = some t → table s.mem pgdir e' = some t → e = e') :
    ∃ s', Phys.freeTables K pgdir n s i = .ok s' ∧
      Freed K s s' fun q => ∃ e, i ≤ e ∧ table s.mem pgdir e = some q := by
  induction n generalizing s i with
  | zero =>
    refine ⟨s, rfl, .none pool ?_⟩
    rintro q ⟨e, from_, here⟩
    have := lt_of_table here
    omega
  | succ n ih =>
    have inside : i < NPDENTRIES := by omega
    have split : ∀ q, (∃ e, i ≤ e ∧ table s.mem pgdir e = some q) ↔
        table s.mem pgdir i = some q ∨ ∃ e, i + 1 ≤ e ∧ table s.mem pgdir e = some q := by
      intro q
      constructor
      · rintro ⟨e, from_, here⟩
        by_cases first : e = i
        · exact .inl (first ▸ here)
        · exact .inr ⟨e, by omega, here⟩
      · rintro (here | ⟨e, from_, here⟩)
        · exact ⟨i, Nat.le_refl i, here⟩
        · exact ⟨e, by omega, here⟩
    unfold Phys.freeTables
    cases here : table s.mem pgdir i with
    | some t =>
      obtain ⟨used, valid, notDir⟩ := own i t (Nat.le_refl i) here
      have is : present (s.mem pgdir i) = true ∧ PTE_ADDR (s.mem pgdir i) = t := by
        unfold table at here
        split at here
        · next both => exact ⟨both.2, Option.some.inj here⟩
        · cases here
      obtain ⟨s₁, done, freed⟩ := kfree_ok pool valid used
      have same : table s₁.mem pgdir = table s.mem pgdir :=
        table_congr (freed.kept pgdir notDir.symm)
      rw [if_pos is.1, is.2, done, ok_bind]
      obtain ⟨s', rest, freed'⟩ := ih s₁ (i + 1) (by omega) freed.pool (fun e t' from_ there => by
          rw [same] at there
          obtain ⟨unlisted, valid', notDir'⟩ := own e t' (by omega) there
          refine ⟨fun mem => ?_, valid', notDir'⟩
          rcases (freed.free t').1 mem with listed | rfl
          · exact unlisted listed
          · have := inj _ _ _ here there
            omega) (by rw [same]; exact inj)
      rw [same] at freed'
      refine ⟨s', rest, (freed.trans freed').congr fun q => ?_⟩
      rw [split, here, Option.some.injEq, eq_comm]
    | none =>
      rw [if_neg (not_present_of_missing inside here), ok_bind]
      obtain ⟨s', rest, freed⟩ :=
        ih s (i + 1) (by omega) pool (fun e t from_ => own e t (by omega)) inj
      refine ⟨s', rest, freed.congr fun q => ?_⟩
      rw [split, here]
      exact or_iff_right nofun

/-- **`freevm`** frees exactly the pages the directory holds. -/
theorem freevm_ok (own : Own K s pgdir) (pool : Pool K s) :
    ∃ s', s.freevm K pgdir = .ok s' ∧ Freed K s s' fun q => ∃ x, held s.mem pgdir x = some q := by
  obtain ⟨s₁, done₁, cleared⟩ :=
    deallocuvm_spec own pool (Nat.le_refl KERNBASE) (show 0 < KERNBASE by decide)
  have frames :
      ∀ q, (∃ u, (pages 0 ≤ u ∧ u < pages KERNBASE ∧ present (entry s.mem pgdir u) = true ∧
        ¬ Skipped s pgdir (pages 0) u) ∧ PTE_ADDR (entry s.mem pgdir u) = q) ↔
        ∃ v, held s.mem pgdir (.frame v) = some q := by
    intro q
    constructor
    · rintro ⟨u, ⟨_, below, is, _⟩, frame⟩
      exact ⟨u, held_frame_iff.2 ⟨below, is, frame⟩⟩
    · rintro ⟨v, here⟩
      obtain ⟨low, is, frame⟩ := held_frame_iff.1 here
      exact ⟨v, ⟨Nat.zero_le v, low, is, fun skipped => Nat.not_lt_zero _ skipped.2.1⟩, frame⟩
  have free₁ : ∀ q, q ∈ s₁.free ↔ q ∈ s.free ∨ ∃ v, held s.mem pgdir (.frame v) = some q := by
    intro q
    obtain ⟨freed, _, mem, free⟩ := cleared.freed
    rw [free, List.mem_append, List.mem_reverse, List.mem_map, or_comm, ← frames]
    exact or_congr_right (exists_congr fun u => and_congr_left' (mem u))
  have own₁ := cleared.own
  obtain ⟨s₂, done₂, tables⟩ := freeTables_ok NPDENTRIES s₁ 0 (Nat.zero_add _) cleared.pool
    (fun e t _ here => ⟨own₁.table_used here, own₁.valid (x := .table e) here, own₁.table_ne here⟩)
    (fun e e' t first second => own₁.table_inj first second)
  have used : pgdir ∉ s₂.free := by
    intro mem
    rcases (tables.free pgdir).1 mem with listed | ⟨e, _, here⟩
    · exact own₁.dir_used listed
    · exact own₁.table_ne here rfl
  obtain ⟨s₃, done₃, last⟩ := kfree_ok tables.pool (own.valid (x := .dir) rfl) used
  rw [cleared.tables] at tables
  have places : ∀ q, (∃ x, held s.mem pgdir x = some q) ↔
      (∃ v, held s.mem pgdir (.frame v) = some q) ∨ (∃ e, 0 ≤ e ∧ table s.mem pgdir e = some q) ∨
      q = pgdir := by
    intro q
    constructor
    · rintro ⟨x, here⟩
      cases x with
      | dir => exact .inr (.inr (Option.some.inj here).symm)
      | table e => exact .inr (.inl ⟨e, Nat.zero_le e, here⟩)
      | frame v => exact .inl ⟨v, here⟩
    · rintro (⟨v, here⟩ | ⟨e, _, here⟩ | rfl)
      · exact ⟨.frame v, here⟩
      · exact ⟨.table e, here⟩
      · exact ⟨.dir, rfl⟩
  refine ⟨s₃, ?_, fun q => ?_, fun q not => ?_, last.calls.trans (tables.calls.trans cleared.calls),
    last.deny.trans (tables.deny.trans cleared.deny), last.pool⟩
  · unfold Phys.freevm
    rw [done₁, ok_bind]
    simp only
    rw [done₂, ok_bind, done₃]
  · rw [last.free, tables.free, free₁, places, or_assoc, or_assoc]
  · rw [places] at not
    rw [last.kept q fun is => not (.inr (.inr is)), tables.kept q fun is => not (.inr (.inl is)),
      cleared.kept q]
    · rintro u gone rfl
      exact not (.inl ((frames _).1 ⟨u, gone, rfl⟩))
    · intro e here
      exact not (.inr (.inl ⟨e, Nat.zero_le e, here⟩))

end Xv6.Vm
