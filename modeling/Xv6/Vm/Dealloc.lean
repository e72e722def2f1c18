/-
**`deallocuvm` and the pages it gives back.**

One round of the loop gives one page back or steps over a page that is not there; where a whole page
table is missing it steps over 1024 pages at once. It does so from the page it is at, which need not
be the first of that table's, so that it lands in the middle of the next table and never looks at
that table's first pages: `Skipped`.
-/

import Xv6.Vm.Table

namespace Xv6.Vm

open Lib
open Function (update update_self update_of_ne update_apply forall_update_iff update_idem)

variable {K : Layout} {s s' : Phys} {pgdir : Page}

/-! ### One page is given back -/

/-- Page `v` was unmapped and its physical page freed. Nothing else changed. -/
structure Unmapped (s s' : Phys) (pgdir : Page) (v : Nat) : Prop where
  entries : entry s'.mem pgdir = update (entry s.mem pgdir) v 0
  tables : table s'.mem pgdir = table s.mem pgdir
  free : s'.free = PTE_ADDR (entry s.mem pgdir v) :: s.free
  calls : s'.calls = s.calls
  deny : s'.deny = s.deny
  kept : ∀ p, p ≠ PTE_ADDR (entry s.mem pgdir v) → (∀ d, table s.mem pgdir d ≠ some p) →
    s'.mem p = s.mem p

theorem Layout.Valid.ne_zero {p : Page} (valid : K.Valid p) : p ≠ 0 := by
  rintro rfl
  have low : K.last ≤ 0 := valid.1
  have := K.text
  have := K.after
  omega

section

variable {v : Nat} (low : v < UPAGES) (is : present (entry s.mem pgdir v) = true)

include low is

theorem held_frame : held s.mem pgdir (.frame v) = some (PTE_ADDR (entry s.mem pgdir v)) :=
  if_pos ⟨low, is⟩

theorem Own.frame_ne (own : Own K s pgdir) : PTE_ADDR (entry s.mem pgdir v) ≠ pgdir := by
  intro same
  have both : held s.mem pgdir .dir = some (PTE_ADDR (entry s.mem pgdir v)) :=
    congrArg some same.symm
  exact nomatch own.inj (held_frame low is) both

theorem Own.frame_ne_table (own : Own K s pgdir) (d : Nat) :
    table s.mem pgdir d ≠ some (PTE_ADDR (entry s.mem pgdir v)) := by
  intro same
  exact nomatch own.inj (x := .frame v) (y := .table d) (held_frame low is) same

theorem Own.unmap (own : Own K s pgdir) {t : Page}
    (here : table s.mem pgdir (v / NPTENTRIES) = some t) :
    ∃ s₁, s.kfree K (PTE_ADDR (entry s.mem pgdir v)) = .ok s₁ ∧
      Unmapped s (s₁.set t (v % NPTENTRIES) 0) pgdir v := by
  let p := PTE_ADDR (entry s.mem pgdir v)
  let s₁ : Phys := { s.fill p (fun _ => 0x01010101) with free := p :: s.free }
  have other : ∀ q, q ≠ p → s₁.mem q = s.mem q := fun q different => update_of_ne different _ _
  have dir : s₁.mem pgdir = s.mem pgdir := other pgdir (own.frame_ne low is).symm
  have tables : ∀ d t, table s.mem pgdir d = some t → s₁.mem t = s.mem t := by
    intro d t' there
    refine other t' fun same => own.frame_ne_table low is d ?_
    rw [there, same]
  have sameTable : table s₁.mem pgdir = table s.mem pgdir := table_congr dir
  have sameEntry : entry s₁.mem pgdir = entry s.mem pgdir := entry_congr dir tables
  obtain ⟨tables', entries'⟩ := Vm.set_table (s := s₁) (sameTable ▸ here) (own.table_ne here)
    (fun d there => own.table_inj (sameTable ▸ there) here) 0
  refine ⟨s₁, if_pos (own.valid (held_frame low is)), ?_⟩
  refine ⟨entries'.trans (by rw [sameEntry]), tables'.trans sameTable, rfl, rfl, rfl,
    fun q notFrame notTable => ?_⟩
  have notHere : q ≠ t := fun same => notTable _ (same ▸ here)
  exact (update_of_ne notHere _ _).trans (other q notFrame)

end

section

variable {v : Nat}

theorem Unmapped.held (unmapped : Unmapped s s' pgdir v) :
    held s'.mem pgdir = update (held s.mem pgdir) (.frame v) none := by
  unfold Vm.held
  rw [unmapped.entries, unmapped.tables, heldBy_frame,
    if_neg fun both => Bool.false_ne_true (present_zero.symm.trans both.2)]

variable (low : v < UPAGES) (is : present (entry s.mem pgdir v) = true)

include low is

theorem Unmapped.own (unmapped : Unmapped s s' pgdir v) (own : Own K s pgdir) : Own K s' pgdir := by
  unfold Own
  rw [unmapped.held, unmapped.free]
  exact own.release (held_frame low is)

theorem Unmapped.pool (unmapped : Unmapped s s' pgdir v) (own : Own K s pgdir) (pool : Pool K s) :
    Pool K s' := by
  refine ⟨?_, ?_⟩ <;> rw [unmapped.free]
  · exact List.nodup_cons.2 ⟨own.used (held_frame low is), pool.nodup⟩
  · intro p mem
    rcases List.mem_cons.1 mem with rfl | mem
    · exact own.valid (held_frame low is)
    · exact pool.valid p mem

end

/-! ### The pages a loop gives back -/

/-- **The pages `gone` were given back**: their entries are 0, each was pushed on the free list
once, and nothing but their contents and the directory's tables changed. -/
structure Cleared (K : Layout) (s s' : Phys) (pgdir : Page) (gone : Nat → Prop) : Prop where
  off : ∀ u, gone u → entry s'.mem pgdir u = 0
  on : ∀ u, ¬ gone u → entry s'.mem pgdir u = entry s.mem pgdir u
  tables : table s'.mem pgdir = table s.mem pgdir
  freed : ∃ freed : List Nat, freed.Nodup ∧ (∀ u, u ∈ freed ↔ gone u) ∧
    s'.free = (freed.map fun u => PTE_ADDR (entry s.mem pgdir u)).reverse ++ s.free
  calls : s'.calls = s.calls
  deny : s'.deny = s.deny
  kept : ∀ p, (∀ u, gone u → p ≠ PTE_ADDR (entry s.mem pgdir u)) →
    (∀ d, table s.mem pgdir d ≠ some p) → s'.mem p = s.mem p
  own : Own K s' pgdir
  pool : Pool K s'

theorem Cleared.none (own : Own K s pgdir) (pool : Pool K s) {gone : Nat → Prop}
    (nothing : ∀ u, ¬ gone u) : Cleared K s s pgdir gone where
  off u is := absurd is (nothing u)
  on _ _ := rfl
  tables := rfl
  freed := ⟨[], List.nodup_nil, fun u => iff_of_false List.not_mem_nil (nothing u), rfl⟩
  calls := rfl
  deny := rfl
  kept _ _ _ := rfl
  own := own
  pool := pool

theorem Cleared.congr {gone gone' : Nat → Prop} (cleared : Cleared K s s' pgdir gone)
    (same : ∀ u, gone' u ↔ gone u) : Cleared K s s' pgdir gone' := by
  have alike : gone' = gone := funext fun u => propext (same u)
  rwa [alike]

theorem Cleared.cons {s₁ : Phys} {v : Nat} {gone : Nat → Prop} (first : Unmapped s s₁ pgdir v)
    (rest : Cleared K s₁ s' pgdir gone) (later : ¬ gone v) :
    Cleared K s s' pgdir fun u => u = v ∨ gone u := by
  have other : ∀ u, u ≠ v → entry s₁.mem pgdir u = entry s.mem pgdir u := by
    intro u different
    rw [first.entries, update_of_ne different]
  have among : ∀ u, gone u → u ≠ v := fun u is same => later (same ▸ is)
  refine ⟨?_, ?_, rest.tables.trans first.tables, ?_, rest.calls.trans first.calls,
    rest.deny.trans first.deny, ?_, rest.own, rest.pool⟩
  · rintro u (rfl | is)
    · rw [rest.on u later, first.entries, update_self]
    · exact rest.off u is
  · intro u not
    rw [rest.on u fun is => not (.inr is), other u fun is => not (.inl is)]
  · obtain ⟨freed, nodup, mem, free⟩ := rest.freed
    refine ⟨v :: freed, List.nodup_cons.2 ⟨fun listed => later ((mem v).1 listed), nodup⟩,
      fun u => ?_, ?_⟩
    · rw [List.mem_cons, mem]
    · have frames : freed.map (fun u => PTE_ADDR (entry s₁.mem pgdir u)) =
          freed.map fun u => PTE_ADDR (entry s.mem pgdir u) :=
        List.map_congr_left fun u listed => by rw [other u (among u ((mem u).1 listed))]
      rw [free, frames, first.free, List.map_cons, List.reverse_cons, List.append_assoc]
      rfl
  · intro p notFreed notTable
    rw [rest.kept p (fun u is => ?_) (by rw [first.tables]; exact notTable),
      first.kept p (notFreed v (.inl rfl)) notTable]
    rw [other u (among u is)]
    exact notFreed u (.inr is)

/-! ### `deallocuvm` -/

/-- The pages that a size takes up. -/
def pages (sz : Nat) : Nat := (sz + (PGSIZE - 1)) / PGSIZE

/-- Page `u` is stepped over from page `v`: all tables from that of `v` up to that of `u` are
missing, and `u` comes earlier in its table than `v` in its own. -/
def Skipped (s : Phys) (pgdir : Page) (v u : Nat) : Prop :=
  v / NPTENTRIES < u / NPTENTRIES ∧ u % NPTENTRIES < v % NPTENTRIES ∧
    ∀ d < u / NPTENTRIES, v / NPTENTRIES ≤ d → table s.mem pgdir d = none

instance (s : Phys) (pgdir : Page) (v u : Nat) : Decidable (Skipped s pgdir v u) :=
  inferInstanceAs (Decidable (_ ∧ _ ∧ _))

theorem lt_pages {v sz : Nat} : v * PGSIZE < sz ↔ v < pages sz := by
  unfold pages PGSIZE
  omega

theorem not_skipped_of_table {v u : Nat} {t : Page}
    (here : table s.mem pgdir (v / NPTENTRIES) = some t) :
    ¬ Skipped s pgdir v u ∧ ¬ Skipped s pgdir (v + 1) u := by
  refine ⟨fun skipped => ?_, fun skipped => ?_⟩
  · exact nomatch (skipped.2.2 _ skipped.1 (Nat.le_refl _)).symm.trans here
  · obtain ⟨below, offset, missing⟩ := skipped
    by_cases next : (v + 1) / NPTENTRIES = v / NPTENTRIES
    · exact nomatch (missing _ (next ▸ below) (Nat.le_of_eq next)).symm.trans here
    · unfold NPTENTRIES at *
      omega

theorem skipped_of_missing {v u : Nat} (missing : table s.mem pgdir (v / NPTENTRIES) = none)
    (is : present (entry s.mem pgdir u) = true) (from_ : v ≤ u) :
    ¬ Skipped s pgdir v u ↔ v + NPTENTRIES ≤ u ∧ ¬ Skipped s pgdir (v + NPTENTRIES) u := by
  have div : (v + NPTENTRIES) / NPTENTRIES = v / NPTENTRIES + 1 := Nat.add_div_right v (by decide)
  have mod : (v + NPTENTRIES) % NPTENTRIES = v % NPTENTRIES := Nat.add_mod_right v _
  have beyond : v / NPTENTRIES < u / NPTENTRIES := by
    refine Nat.lt_of_le_of_ne (Nat.div_le_div_right from_) fun same => ?_
    obtain ⟨t, here⟩ := exists_table is
    exact nomatch (same ▸ missing).symm.trans here
  constructor
  · intro not
    refine ⟨?_, fun skipped => not ?_⟩
    · by_contra near
      refine not ⟨beyond, ?_, fun d before from_ => ?_⟩
      · unfold NPTENTRIES at *
        omega
      · have : d = v / NPTENTRIES := by
          unfold NPTENTRIES at *
          omega
        rw [this, missing]
    · obtain ⟨_, offset, rest⟩ := skipped
      rw [mod] at offset
      refine ⟨beyond, offset, fun d before from_ => ?_⟩
      by_cases first : d = v / NPTENTRIES
      · rw [first, missing]
      · exact rest d before (by rw [div]; omega)
  · rintro ⟨far, not⟩ ⟨_, offset, rest⟩
    refine not ⟨?_, by rw [mod]; exact offset, fun d before from_ => rest d before ?_⟩
    · rw [div]
      unfold NPTENTRIES at *
      omega
    · rw [div] at from_
      omega

/-- The loop frees the pages that are there, but for those it steps over. -/
theorem deallocLoop_spec {oldsz : Nat} (small : oldsz ≤ KERNBASE) (n : Nat) (s : Phys) (v : Nat)
    (own : Own K s pgdir) (pool : Pool K s) (enough : pages oldsz ≤ v + n) :
    ∃ s', Phys.deallocLoop K pgdir oldsz n s (v * PGSIZE) = .ok s' ∧ Cleared K s s' pgdir fun u =>
      v ≤ u ∧ u < pages oldsz ∧ present (entry s.mem pgdir u) = true ∧ ¬ Skipped s pgdir v u := by
  induction n generalizing s v with
  | zero => exact ⟨s, rfl, .none own pool fun u ⟨from_, below, _⟩ => by omega⟩
  | succ n ih =>
    unfold Phys.deallocLoop
    by_cases more : v * PGSIZE < oldsz
    · have below := lt_pages.1 more
      have low : v < UPAGES := by
        unfold UPAGES
        unfold PGSIZE KERNBASE at *
        omega
      have inside : v < 2 ^ 20 := Nat.lt_of_lt_of_le low (by decide)
      rw [if_pos more]
      cases here : table s.mem pgdir (v / NPTENTRIES) with
      | none =>
        rw [walk_missing (by rw [PDX_page inside]; exact here)]
        have next :
            v * PGSIZE + (NPTENTRIES - 1) * PGSIZE + PGSIZE = (v + NPTENTRIES) * PGSIZE := by
          unfold NPTENTRIES PGSIZE
          omega
        obtain ⟨s', done, cleared⟩ := ih s (v + NPTENTRIES) own pool (by unfold NPTENTRIES; omega)
        refine ⟨s', ?_, cleared.congr fun u => ?_⟩
        · rw [next]
          exact done
        · constructor
          · rintro ⟨from_, before, is, not⟩
            obtain ⟨far, not'⟩ := (skipped_of_missing here is from_).1 not
            exact ⟨far, before, is, not'⟩
          · rintro ⟨far, before, is, not'⟩
            have from_ : v ≤ u := Nat.le_trans (Nat.le_add_right _ _) far
            exact ⟨from_, before, is, (skipped_of_missing here is from_).2 ⟨far, not'⟩⟩
      | some t =>
        rw [walk_known false (by rw [PDX_page inside]; exact here), PTX_page]
        simp only
        rw [← entry_of_table here]
        have next : v * PGSIZE + PGSIZE = (v + 1) * PGSIZE := by
          rw [Nat.succ_mul]
        rw [next]
        by_cases is : present (entry s.mem pgdir v) = true
        · obtain ⟨s₁, kfree, unmapped⟩ := own.unmap low is here
          rw [if_pos is, if_neg (own.valid (held_frame low is)).ne_zero, kfree, ok_bind]
          obtain ⟨s', done, cleared⟩ :=
            ih _ (v + 1) (unmapped.own low is own) (unmapped.pool low is own pool) (by omega)
          refine ⟨s', done, (Cleared.cons unmapped cleared fun both => by omega).congr fun u => ?_⟩
          have skip : Skipped (s₁.set t (v % NPTENTRIES) 0) pgdir (v + 1) u ↔
            Skipped s pgdir (v + 1) u := by
            unfold Skipped
            rw [unmapped.tables]
          have notSkipped := not_skipped_of_table (u := u) here
          constructor
          · rintro ⟨from_, before, is', _⟩
            by_cases same : u = v
            · exact .inl same
            · refine .inr ⟨by omega, before, ?_, skip.not.2 notSkipped.2⟩
              rw [unmapped.entries, update_of_ne same]
              exact is'
          · rintro (rfl | ⟨from_, before, is', _⟩)
            · exact ⟨Nat.le_refl _, below, is, notSkipped.1⟩
            · rw [unmapped.entries, update_of_ne (by omega)] at is'
              exact ⟨by omega, before, is', notSkipped.1⟩
        · obtain ⟨s', done, cleared⟩ := ih s (v + 1) own pool (by omega)
          rw [if_neg is]
          refine ⟨s', done, cleared.congr fun u => ?_⟩
          have notSkipped := not_skipped_of_table (u := u) here
          constructor
          · rintro ⟨from_, before, is', _⟩
            refine ⟨?_, before, is', notSkipped.2⟩
            refine Nat.lt_of_le_of_ne from_ ?_
            rintro rfl
            exact is is'
          · rintro ⟨from_, before, is', _⟩
            exact ⟨by omega, before, is', notSkipped.1⟩
    · rw [if_neg more]
      exact ⟨s, rfl, .none own pool fun u ⟨from_, before, _⟩ => more (lt_pages.2 (by omega))⟩

theorem PGROUNDUP_eq {sz : Nat} (small : sz ≤ KERNBASE) : PGROUNDUP sz = pages sz * PGSIZE := by
  unfold PGROUNDUP pages
  unfold KERNBASE PGSIZE at *
  omega

theorem rounds_pages (v oldsz : Nat) : pages oldsz ≤ v + Phys.rounds (v * PGSIZE) oldsz := by
  unfold Phys.rounds pages PGSIZE
  omega

theorem deallocuvm_spec {oldsz newsz : Nat} (own : Own K s pgdir) (pool : Pool K s)
    (small : oldsz ≤ KERNBASE) (shrinks : newsz < oldsz) :
    ∃ s', s.deallocuvm K pgdir oldsz newsz = .ok (s', newsz) ∧ Cleared K s s' pgdir fun u =>
      pages newsz ≤ u ∧ u < pages oldsz ∧ present (entry s.mem pgdir u) = true ∧
        ¬ Skipped s pgdir (pages newsz) u := by
  obtain ⟨s', done, cleared⟩ := deallocLoop_spec small _ s (pages newsz) own pool (rounds_pages _ _)
  refine ⟨s', ?_, cleared⟩
  unfold Phys.deallocuvm
  rw [if_neg (Nat.not_le.2 shrinks), PGROUNDUP_eq (by omega), done]
  rfl

/-- A page with an address in `[PGROUNDUP(newsz), oldsz)`. -/
def InRange (newsz oldsz v : Nat) : Prop := PGROUNDUP newsz ≤ v * PGSIZE ∧ v * PGSIZE < oldsz

instance (newsz oldsz v : Nat) : Decidable (InRange newsz oldsz v) :=
  inferInstanceAs (Decidable (_ ∧ _))

theorem inRange_iff {newsz oldsz v : Nat} (small : newsz ≤ KERNBASE) :
    InRange newsz oldsz v ↔ pages newsz ≤ v ∧ v < pages oldsz := by
  unfold InRange
  rw [PGROUNDUP_eq small, lt_pages, Nat.mul_le_mul_right_iff (by decide)]

/-- **The whole range was freed**: no page of it is present, each page that was present there was
passed to `kfree` once, and the other pages are mapped as before. -/
structure FreesRange (s s' : Phys) (pgdir : Page) (oldsz newsz : Nat) : Prop where
  gone : ∀ v, InRange newsz oldsz v → present (entry s'.mem pgdir v) = false
  once : ∃ freed : List Nat, freed.Nodup ∧
    (∀ v, v ∈ freed ↔ InRange newsz oldsz v ∧ present (entry s.mem pgdir v) = true) ∧
    s'.free = (freed.map fun v => PTE_ADDR (entry s.mem pgdir v)).reverse ++ s.free
  kept : ∀ v, ¬ InRange newsz oldsz v → entry s'.mem pgdir v = entry s.mem pgdir v

/-- **`deallocuvm` frees its range exactly when the loop steps over no present page of it.** -/
theorem deallocuvm_frees_iff {oldsz newsz : Nat} (own : Own K s pgdir) (pool : Pool K s)
    (small : oldsz ≤ KERNBASE) (shrinks : newsz < oldsz) :
    ∃ s', s.deallocuvm K pgdir oldsz newsz = .ok (s', newsz) ∧
      (FreesRange s s' pgdir oldsz newsz ↔ ∀ v, InRange newsz oldsz v →
        present (entry s.mem pgdir v) = true →
        ¬ Skipped s pgdir (PGROUNDUP newsz / PGSIZE) v) := by
  obtain ⟨s', done, cleared⟩ := deallocuvm_spec own pool small shrinks
  have small' : newsz ≤ KERNBASE := by omega
  have start : PGROUNDUP newsz / PGSIZE = pages newsz := by
    rw [PGROUNDUP_eq small', Nat.mul_div_cancel _ (by decide)]
  refine ⟨s', done, ?_⟩
  rw [start]
  constructor
  · intro frees v range is skipped
    have still := cleared.on v fun gone => gone.2.2.2 skipped
    have off := frees.gone v range
    rw [still, is] at off
    cases off
  · intro none
    refine ⟨fun v range => ?_, ?_, fun v outside => cleared.on v fun gone => outside ?_⟩
    · by_cases is : present (entry s.mem pgdir v) = true
      · obtain ⟨from_, below⟩ := (inRange_iff small').1 range
        rw [cleared.off v ⟨from_, below, is, none v range is⟩, present_zero]
      · rw [cleared.on v fun gone => is gone.2.2.1]
        exact Bool.eq_false_iff.2 is
    · obtain ⟨freed, nodup, mem, free⟩ := cleared.freed
      refine ⟨freed, nodup, fun v => (mem v).trans ?_, free⟩
      constructor
      · rintro ⟨from_, below, is, _⟩
        exact ⟨(inRange_iff small').2 ⟨from_, below⟩, is⟩
      · rintro ⟨range, is⟩
        obtain ⟨from_, below⟩ := (inRange_iff small').1 range
        exact ⟨from_, below, is, none v range is⟩
    · exact (inRange_iff small').2 ⟨gone.1, gone.2.1⟩

/-- A kernel of three megabytes. -/
def smallKernel : Layout := ⟨0x200000, 0x300000, by decide, by decide, by decide, by decide⟩

/-- The directory at page `0x400` has one table, in entry `d`, and that table one page, the
first. -/
def oneTable (d : Nat) : Phys where
  mem p i := if p = 0x400 ∧ i = d then mkpte 0x401 7 else if p = 0x401 ∧
    i = 0 then mkpte 0x402 7 else 0
  free := []
  calls := 0
  deny _ := false

section

variable {d : Nat} (inside : d < NPDENTRIES)

include inside

theorem table_oneTable : table (oneTable d).mem 0x400 = update (fun _ => none) d (some 0x401) := by
  funext e
  by_cases here : e = d
  · subst here
    have is : (oneTable e).mem 0x400 e = mkpte 0x401 7 := if_pos ⟨rfl, rfl⟩
    rw [update_self, table, is, if_pos ⟨inside, by decide⟩, PTE_ADDR_mkpte]
  · rw [update_of_ne here]
    refine if_neg fun both => ?_
    have zero : (oneTable d).mem 0x400 e = 0 := by
      show (if (0x400 : Page) = 0x400 ∧ e = d then _ else if (0x400 : Page) = 0x401 ∧
        e = 0 then _ else (0 : Word)) = 0
      rw [if_neg fun is => here is.2, if_neg fun is => absurd is.1 (by decide)]
    rw [zero, present_zero] at both
    exact Bool.false_ne_true both.2

theorem entry_oneTable : entry (oneTable d).mem 0x400 = update (fun _ => 0) (d * NPTENTRIES)
    (mkpte 0x402 7) := by
  funext v
  unfold entry
  rw [table_oneTable inside]
  by_cases here : v / NPTENTRIES = d
  · rw [here, update_self]
    show (if (0x401 : Page) = 0x400 ∧ v % NPTENTRIES = d then mkpte 0x401 7
      else if (0x401 : Page) = 0x401 ∧ v % NPTENTRIES = 0 then mkpte 0x402 7 else 0) = _
    rw [if_neg fun is => absurd is.1 (by decide)]
    unfold NPTENTRIES at *
    by_cases first : v = d * 1024
    · rw [if_pos ⟨rfl, by omega⟩, first, update_self]
    · rw [if_neg fun is => first (by omega), update_of_ne first]
  · rw [update_of_ne here, update_of_ne]
    rintro rfl
    exact here (Nat.mul_div_cancel d (by decide))

theorem own_oneTable (low : d * NPTENTRIES < UPAGES) : Own smallKernel (oneTable d) 0x400 := by
  have now : held (oneTable d).mem 0x400 = update (update (heldBy 0x400 (fun _ => none) fun _ => 0)
      (.table d) (some 0x401)) (.frame (d * NPTENTRIES)) (some 0x402) := by
    unfold held
    rw [table_oneTable inside, entry_oneTable inside, heldBy_frame, heldBy_table,
      if_pos ⟨low, by decide⟩, PTE_ADDR_mkpte]
  have empty : Tenure smallKernel (heldBy 0x400 (fun _ => none) fun _ => 0) [] :=
    tenure_empty List.not_mem_nil (by decide)
  have other : ∀ (p : Page), p ≠ 0x400 → ∀ y, heldBy 0x400 (fun _ => none)
    (fun _ => 0) y ≠ some p := by
    intro p different y here
    rw [heldBy_empty] at here
    split at here
    · exact different (Option.some.inj here).symm
    · cases here
  unfold Own
  rw [now]
  refine (empty.adopt (x := .table d) (p := 0x401) (fun _ mem => mem)
    (other _ (by decide)) List.not_mem_nil
    (by decide)).adopt (p := 0x402) (fun _ mem => mem)
      (fun y here => ?_) List.not_mem_nil (by decide)
  by_cases same : y = .table d
  · subst same
    rw [update_self] at here
    exact absurd (Option.some.inj here) (by decide)
  · rw [update_of_ne same] at here
    exact other _ (by decide) y here

end

theorem pool_oneTable (d : Nat) : Pool smallKernel (oneTable d) :=
  ⟨List.nodup_nil, fun _ mem => absurd mem List.not_mem_nil⟩

/-- From address 0 on nothing is stepped over, and the page is freed. -/
theorem deallocuvm_frees_iff_all :
    ∃ s', (oneTable 1).deallocuvm smallKernel 0x400 0x401000 0 = .ok (s', 0) ∧
    FreesRange (oneTable 1) s' 0x400 0x401000 0 := by
  have own : Own smallKernel (oneTable 1) 0x400 := own_oneTable (by decide) (by decide)
  obtain ⟨s', done, frees⟩ :=
    deallocuvm_frees_iff own (pool_oneTable 1) (show 0x401000 ≤ KERNBASE by decide)
    (show 0 < 0x401000 by decide)
  exact ⟨s', done, frees.2 fun v _ _ skipped => Nat.not_lt_zero _ skipped.2.1⟩

/-- From the last page of the first four megabytes on, whose table is missing, the loop steps over
the page at `0x400000`. -/
theorem deallocuvm_skips :
    (oneTable 1).deallocuvm smallKernel 0x400 0x401000 0x3ff000 = .ok (oneTable 1, 0x3ff000) ∧
    InRange 0x3ff000 0x401000 0x400 ∧ present (entry (oneTable 1).mem 0x400 0x400) = true ∧
    ¬ FreesRange (oneTable 1) (oneTable 1) 0x400 0x401000 0x3ff000 := by
  have range : InRange 0x3ff000 0x401000 0x400 := by decide
  have is : present (entry (oneTable 1).mem 0x400 0x400) = true := by decide
  refine ⟨rfl, range, is, fun frees => ?_⟩
  exact Bool.false_ne_true ((frees.gone _ range).symm.trans is)

end Xv6.Vm
