/-
**What a page directory maps.**

`table` and `entry` read a page directory as two functions: the page table of each directory entry,
and the entry of each page of the address space, which is 0 where there is no table. All that
follows is said of these two.

A directory holds pages at places: itself, its page tables and the pages of its user part. `Own`
says that these are all different, none is free, and `kfree` would take each. It is what makes a
stored entry change that entry alone.
-/

import Xv6.Lib.Sole
import Xv6.Vm.Basic

namespace Xv6.Vm

open Lib Function

/-! ### Entries -/

theorem PTE_P_eq : PTE_P = BitVec.twoPow 12 0 := by decide

@[simp]
theorem PTE_ADDR_mkpte (p : Page) (f : Flags) : PTE_ADDR (mkpte p f) = p :=
  BitVec.extractLsb'_append_eq_left

@[simp]
theorem PTE_FLAGS_mkpte (p : Page) (f : Flags) : PTE_FLAGS (mkpte p f) = f :=
  BitVec.extractLsb'_append_eq_right

theorem present_iff {w : Word} : present w = true ↔ (PTE_FLAGS w).getLsbD 0 = true := by
  unfold present
  rw [PTE_P_eq, BitVec.and_twoPow, decide_eq_true_iff]
  split
  · next bit => exact iff_of_true (by decide) bit
  · next bit => exact iff_of_false (fun nonzero => nonzero rfl) bit

@[simp]
theorem present_zero : present 0 = false := by decide

@[simp]
theorem present_mkpte (p : Page) (f : Flags) : present (mkpte p (f ||| PTE_P)) = true := by
  rw [present_iff, PTE_FLAGS_mkpte, BitVec.getLsbD_or, PTE_P_eq]
  exact Bool.or_eq_true_iff.2 (.inr (by decide))

@[simp]
theorem present_pde (p : Page) : present (mkpte p (PTE_P ||| PTE_W ||| PTE_U)) = true := by
  rw [present_iff, PTE_FLAGS_mkpte]
  decide

/-! ### The directory as two functions -/

/-- The page table of a directory entry. -/
def table (mem : Page → Nat → Word) (pgdir : Page) (d : Nat) : Option Page :=
  if d < NPDENTRIES ∧ present (mem pgdir d) = true then some (PTE_ADDR (mem pgdir d)) else none

/-- The entry of page `v` of the address space. -/
def entry (mem : Page → Nat → Word) (pgdir : Page) (v : Nat) : Word :=
  match table mem pgdir (v / NPTENTRIES) with
  | some t => mem t (v % NPTENTRIES)
  | none => 0

/-- The places where a directory holds pages. -/
inductive Place
  | dir
  | table (d : Nat)
  | frame (v : Nat)
  deriving DecidableEq

/-- The pages of the user part of an address space. -/
def UPAGES : Nat := KERNBASE / PGSIZE

/-- The page held at a place, told from the two functions. -/
def heldBy (pgdir : Page) (tab : Nat → Option Page) (ent : Nat → Word) : Place → Option Page
  | .dir => some pgdir
  | .table d => tab d
  | .frame v => if v < UPAGES ∧ present (ent v) = true then some (PTE_ADDR (ent v)) else none

/-- The page a directory holds at a place. -/
def held (mem : Page → Nat → Word) (pgdir : Page) : Place → Option Page :=
  heldBy pgdir (table mem pgdir) (entry mem pgdir)

variable (K : Layout)

/-- The pages held at the places are different, in use, and between the end of the kernel and the
top of memory. -/
structure Tenure {ι : Type} (held : ι → Option Page) (free : List Page) :
    Prop extends Sole held free where
  valid : ∀ {x p}, held x = some p → K.Valid p

/-- A directory's pages are its own. -/
abbrev Own (s : Phys) (pgdir : Page) : Prop := Tenure K (held s.mem pgdir) s.free

/-- The free list has no page twice, and only pages `kfree` would take. -/
structure Pool (s : Phys) : Prop where
  nodup : s.free.Nodup
  valid : ∀ p ∈ s.free, K.Valid p

variable {K} {s s' : Phys} {pgdir : Page}

theorem table_congr {m m' : Page → Nat → Word} (same : m' pgdir = m pgdir) :
    table m' pgdir = table m pgdir := by
  funext d
  unfold table
  rw [same]

theorem entry_congr {m m' : Page → Nat → Word} (dir : m' pgdir = m pgdir)
    (tables : ∀ d t, table m pgdir d = some t → m' t = m t) : entry m' pgdir = entry m pgdir := by
  funext v
  unfold entry
  rw [table_congr dir]
  split
  · next t here => rw [tables _ t here]
  · rfl

theorem held_congr {m m' : Page → Nat → Word} (dir : m' pgdir = m pgdir)
    (tables : ∀ d t, table m pgdir d = some t → m' t = m t) : held m' pgdir = held m pgdir := by
  unfold held
  rw [table_congr dir, entry_congr dir tables]

theorem table_of_present {d : Nat} (inside : d < NPDENTRIES) (is : present (s.mem pgdir d) = true) :
    table s.mem pgdir d = some (PTE_ADDR (s.mem pgdir d)) :=
  if_pos ⟨inside, is⟩

theorem lt_of_table {d : Nat} {t : Page} (here : table s.mem pgdir d = some t) :
    d < NPDENTRIES := by
  unfold table at here
  split at here
  · next both => exact both.1
  · cases here

theorem entry_of_table {v : Nat} {t : Page} (here : table s.mem pgdir (v / NPTENTRIES) = some t) :
    entry s.mem pgdir v = s.mem t (v % NPTENTRIES) := by
  unfold entry
  rw [here]

theorem entry_of_missing {v : Nat} (missing : table s.mem pgdir (v / NPTENTRIES) = none) :
    entry s.mem pgdir v = 0 := by
  unfold entry
  rw [missing]

theorem exists_table {v : Nat} (is : present (entry s.mem pgdir v) = true) :
    ∃ t, table s.mem pgdir (v / NPTENTRIES) = some t := by
  cases here : table s.mem pgdir (v / NPTENTRIES) with
  | some t => exact ⟨t, rfl⟩
  | none =>
    rw [entry_of_missing here, present_zero] at is
    cases is

/-! ### `kalloc` -/

namespace Phys

/-- Whether the next call of `kalloc` fails. -/
def refuses (s : Phys) : Bool := s.deny s.calls || s.free.isEmpty

/-- A call of `kalloc` that fails only counts. -/
def refused (s : Phys) : Phys := { s with calls := s.calls + 1 }

/-- A call of `kalloc` takes the first free page. -/
def taken (s : Phys) : Phys := { s with free := s.free.tail, calls := s.calls + 1 }

theorem kalloc_refused (s : Phys) (fails : s.refuses = true) : s.kalloc = (s.refused, none) := by
  unfold refuses at fails
  unfold kalloc
  rcases Bool.or_eq_true_iff.1 fails with denied | empty
  · rw [if_pos denied]
    rfl
  · split
    · rfl
    · rw [List.isEmpty_iff] at empty
      split
      · rfl
      · next listed =>
          rw [listed] at empty
          cases empty

theorem kalloc_taken (s : Phys) (serves : s.refuses = false) :
    ∃ r, s.free = r :: s.taken.free ∧ s.kalloc = (s.taken, some r) := by
  unfold refuses at serves
  obtain ⟨granted, nonempty⟩ := Bool.or_eq_false_iff.1 serves
  unfold kalloc taken
  rw [if_neg (Bool.eq_false_iff.1 granted)]
  cases listed : s.free with
  | nil =>
    rw [listed] at nonempty
    cases nonempty
  | cons r next => exact ⟨r, rfl, rfl⟩

end Phys

/-! ### `walkpgdir` -/

theorem PDX_lt (va : Nat) : PDX va < NPDENTRIES := Nat.mod_lt _ (by decide)

theorem PDX_page {v : Nat} (inside : v < 2 ^ 20) : PDX (v * PGSIZE) = v / NPTENTRIES := by
  unfold PDX PGSIZE NPTENTRIES
  omega

theorem PTX_page (v : Nat) : PTX (v * PGSIZE) = v % NPTENTRIES := by
  unfold PTX PGSIZE NPTENTRIES
  omega

theorem walk_known {va : Nat} {t : Page} (alloc : Bool)
    (here : table s.mem pgdir (PDX va) = some t) :
    s.walkpgdir pgdir va alloc = (s, some (t, PTX va)) := by
  unfold table at here
  unfold Phys.walkpgdir
  split at here
  · next both =>
      rw [if_pos both.2]
      cases here
      rfl
  · cases here

theorem not_present_of_missing {d : Nat} (inside : d < NPDENTRIES)
    (missing : table s.mem pgdir d = none) : ¬ present (s.mem pgdir d) = true := by
  intro is
  rw [table_of_present inside is] at missing
  cases missing

theorem walk_missing {va : Nat} (missing : table s.mem pgdir (PDX va) = none) :
    s.walkpgdir pgdir va false = (s, none) := by
  unfold Phys.walkpgdir
  rw [if_neg (not_present_of_missing (PDX_lt va) missing), if_neg Bool.false_ne_true]

theorem walk_refused {va : Nat} (missing : table s.mem pgdir (PDX va) = none)
    (fails : s.refuses = true) : s.walkpgdir pgdir va true = (s.refused, none) := by
  unfold Phys.walkpgdir
  rw [if_neg (not_present_of_missing (PDX_lt va) missing), if_pos rfl, s.kalloc_refused fails]

/-- The state after a new page table `t` was hung into entry `d`. -/
def Phys.withTable (s : Phys) (pgdir : Page) (d : Nat) (t : Page) : Phys :=
  (s.taken.fill t fun _ => 0).set pgdir d (mkpte t (PTE_P ||| PTE_W ||| PTE_U))

theorem walk_new {va : Nat} (missing : table s.mem pgdir (PDX va) = none)
    (serves : s.refuses = false) :
    ∃ t, s.free = t :: s.taken.free ∧
      s.walkpgdir pgdir va true = (s.withTable pgdir (PDX va) t, some (t, PTX va)) := by
  obtain ⟨t, listed, is⟩ := s.kalloc_taken serves
  refine ⟨t, listed, ?_⟩
  unfold Phys.walkpgdir
  rw [if_neg (not_present_of_missing (PDX_lt va) missing), if_pos rfl, is]
  rfl

/-! ### Stores to a directory and its tables -/

theorem Own.table_ne (own : Own K s pgdir) {d : Nat} {t : Page}
    (here : table s.mem pgdir d = some t) : t ≠ pgdir := by
  rintro rfl
  exact nomatch own.inj (x := .table d) (y := .dir) here rfl

theorem Own.table_inj (own : Own K s pgdir) {d e : Nat} {t : Page}
    (first : table s.mem pgdir d = some t) (second : table s.mem pgdir e = some t) : d = e :=
  Place.table.inj (own.inj (x := .table d) (y := .table e) first second)

theorem Own.dir_used (own : Own K s pgdir) : pgdir ∉ s.free := own.used (x := .dir) rfl

theorem Own.table_used (own : Own K s pgdir) {d : Nat} {t : Page}
    (here : table s.mem pgdir d = some t) : t ∉ s.free :=
  own.used (x := .table d) here

theorem eq_of_div_mod {u v : Nat} (div : u / NPTENTRIES = v / NPTENTRIES)
    (mod : u % NPTENTRIES = v % NPTENTRIES) : u = v := by
  rw [← Nat.div_add_mod u NPTENTRIES, div, mod, Nat.div_add_mod]

theorem set_table {v : Nat} {t : Page} (here : table s.mem pgdir (v / NPTENTRIES) = some t)
    (notDir : t ≠ pgdir) (only : ∀ d, table s.mem pgdir d = some t → d = v / NPTENTRIES)
    (w : Word) :
    table (s.set t (v % NPTENTRIES) w).mem pgdir = table s.mem pgdir ∧
      entry (s.set t (v % NPTENTRIES) w).mem pgdir = update (entry s.mem pgdir) v w := by
  have dir : (s.set t (v % NPTENTRIES) w).mem pgdir = s.mem pgdir := update_of_ne notDir.symm _ _
  refine ⟨table_congr dir, ?_⟩
  funext u
  by_cases same : u = v
  · subst same
    rw [update_self]
    unfold entry
    rw [table_congr dir, here]
    show update s.mem t (update (s.mem t) (u % NPTENTRIES) w) t (u % NPTENTRIES) = w
    rw [update_self, update_self]
  · rw [update_of_ne same]
    unfold entry
    rw [table_congr dir]
    cases there : table s.mem pgdir (u / NPTENTRIES) with
    | none => rfl
    | some t' =>
      show update s.mem t (update (s.mem t) (v % NPTENTRIES) w) t' (u % NPTENTRIES) = _
      by_cases alike : t' = t
      · subst alike
        rw [update_self, update_of_ne]
        exact fun mod => same (eq_of_div_mod (only _ there) mod)
      · rw [update_of_ne alike]

/-- A stored entry changes that entry alone. -/
theorem Own.set_table (own : Own K s pgdir) {v : Nat} {t : Page}
    (here : table s.mem pgdir (v / NPTENTRIES) = some t) (w : Word) :
    table (s.set t (v % NPTENTRIES) w).mem pgdir = table s.mem pgdir ∧
      entry (s.set t (v % NPTENTRIES) w).mem pgdir = update (entry s.mem pgdir) v w :=
  Vm.set_table here (own.table_ne here) (fun _ there => own.table_inj there here) w

theorem Own.withTable (own : Own K s pgdir) {d : Nat} {t : Page} (inside : d < NPDENTRIES)
    (missing : table s.mem pgdir d = none) (listed : t ∈ s.free) :
    table (s.withTable pgdir d t).mem pgdir = update (table s.mem pgdir) d (some t) ∧
      entry (s.withTable pgdir d t).mem pgdir = entry s.mem pgdir ∧
      ∀ p, p ≠ pgdir → p ≠ t → (s.withTable pgdir d t).mem p = s.mem p := by
  have notDir : t ≠ pgdir := fun same => own.dir_used (same ▸ listed)
  have dir : (s.withTable pgdir d t).mem pgdir =
      update (s.mem pgdir) d (mkpte t (PTE_P ||| PTE_W ||| PTE_U)) := by
    show update (update s.mem t _) pgdir (update (update s.mem t _ pgdir) d _) pgdir = _
    rw [update_self, update_of_ne notDir.symm]
  have other : ∀ p, p ≠ pgdir → (s.withTable pgdir d t).mem p = update s.mem t (fun _ => 0) p :=
    fun p different => update_of_ne different _ _
  have tables :
      table (s.withTable pgdir d t).mem pgdir = update (table s.mem pgdir) d (some t) := by
    funext e
    unfold table
    rw [dir]
    by_cases same : e = d
    · subst same
      rw [update_self, update_self, if_pos ⟨inside, present_pde t⟩, PTE_ADDR_mkpte]
    · rw [update_of_ne same, update_of_ne same]
  refine ⟨tables, ?_, fun p notDir' notNew => (other p notDir').trans (update_of_ne notNew _ _)⟩
  funext u
  unfold entry
  rw [tables]
  by_cases same : u / NPTENTRIES = d
  · rw [same, update_self, missing]
    show (s.withTable pgdir d t).mem t _ = 0
    rw [other t notDir, update_self]
  · rw [update_of_ne same]
    cases there : table s.mem pgdir (u / NPTENTRIES) with
    | none => rfl
    | some t' =>
      have different : t' ≠ t := fun alike => own.table_used there (alike ▸ listed)
      show (s.withTable pgdir d t).mem t' _ = _
      rw [other t' (own.table_ne there), update_of_ne different]

theorem heldBy_table (tab : Nat → Option Page) (ent : Nat → Word) (d : Nat) (t : Option Page) :
    heldBy pgdir (update tab d t) ent = update (heldBy pgdir tab ent) (.table d) t := by
  funext x
  cases x with
  | dir => exact (update_of_ne (show Place.dir ≠ .table d from nofun) _ _).symm
  | frame v => exact (update_of_ne (show Place.frame v ≠ .table d from nofun) _ _).symm
  | table e =>
    by_cases same : e = d
    · subst same
      rw [update_self]
      exact update_self e t tab
    · rw [update_of_ne fun alike => same (Place.table.inj alike)]
      exact update_of_ne same t tab

theorem heldBy_frame (tab : Nat → Option Page) (ent : Nat → Word) (v : Nat) (w : Word) :
    heldBy pgdir tab (update ent v w) = update (heldBy pgdir tab ent) (.frame v)
      (if v < UPAGES ∧ present w = true then some (PTE_ADDR w) else none) := by
  funext x
  cases x with
  | dir => exact (update_of_ne (show Place.dir ≠ .frame v from nofun) _ _).symm
  | table d => exact (update_of_ne (show Place.table d ≠ .frame v from nofun) _ _).symm
  | frame u =>
    by_cases same : u = v
    · subst same
      rw [update_self]
      show (if u < UPAGES ∧ present (update ent u w u) = true then
        some (PTE_ADDR (update ent u w u)) else none) = _
      rw [update_self]
    · rw [update_of_ne fun alike => same (Place.frame.inj alike)]
      show (if u < UPAGES ∧ present (update ent v w u) = true then
        some (PTE_ADDR (update ent v w u)) else none) = _
      rw [update_of_ne same]
      rfl

section

variable {ι : Type} [DecidableEq ι] {hold : ι → Option Page} {free free' : List Page}
    {x : ι} {p : Page}

theorem Tenure.adopt (tenure : Tenure K hold free) (fewer : ∀ q ∈ free', q ∈ free)
    (unheld : ∀ y, hold y ≠ some p) (taken : p ∉ free') (valid : K.Valid p) :
    Tenure K (update hold x (some p)) free' := by
  refine ⟨(tenure.toSole.mono fewer).adopt unheld taken (update_self x (some p) hold)
    fun y other => update_of_ne other _ _, fun {y q} here => ?_⟩
  by_cases same : y = x
  · subst same
    rw [update_self] at here
    cases here
    exact valid
  · rw [update_of_ne same] at here
    exact tenure.valid here

theorem Tenure.release (tenure : Tenure K hold free) (was : hold x = some p) :
    Tenure K (update hold x none) (p :: free) := by
  refine ⟨tenure.toSole.release was (update_self x none hold) fun y other => update_of_ne other _ _,
    fun {y q} here => ?_⟩
  by_cases same : y = x
  · subst same
    rw [update_self] at here
    cases here
  · rw [update_of_ne same] at here
    exact tenure.valid here

end

theorem heldBy_empty (x : Place) :
    heldBy pgdir (fun _ => none) (fun _ => 0) x = if x = .dir then some pgdir else none := by
  cases x with
  | dir => rfl
  | table d => rfl
  | frame v => exact if_neg fun both => Bool.false_ne_true (present_zero.symm.trans both.2)

theorem tenure_empty {free : List Page} (used : pgdir ∉ free) (valid : K.Valid pgdir) :
    Tenure K (heldBy pgdir (fun _ => none) fun _ => 0) free := by
  have only : ∀ {x p}, heldBy pgdir (fun _ => none) (fun _ => 0) x = some p → x = .dir ∧
    p = pgdir := by
    intro x p here
    rw [heldBy_empty] at here
    split at here
    · next same => exact ⟨same, (Option.some.inj here).symm⟩
    · cases here
  refine ⟨⟨fun first second => (only first).1.trans (only second).1.symm, fun here => ?_⟩,
    fun here => ?_⟩
  · rw [(only here).2]
    exact used
  · rw [(only here).2]
    exact valid

theorem Own.unheld_of_free (own : Own K s pgdir) {p : Page} (listed : p ∈ s.free) (x : Place) :
    held s.mem pgdir x ≠ some p :=
  fun here => own.used here listed

theorem Pool.head (pool : Pool K s) {r : Page} {next : List Page} (listed : s.free = r :: next) :
    r ∈ s.free ∧ r ∉ next ∧ K.Valid r := by
  have first : r ∈ s.free := listed ▸ List.mem_cons_self
  exact ⟨first, (List.nodup_cons.1 (listed ▸ pool.nodup)).1, pool.valid r first⟩

/-- A new page table is a free page and maps nothing. -/
theorem Own.hang (own : Own K s pgdir) (pool : Pool K s) {d : Nat} {t : Page}
    (inside : d < NPDENTRIES) (missing : table s.mem pgdir d = none)
    (listed : s.free = t :: s.taken.free) : Own K (s.withTable pgdir d t) pgdir := by
  obtain ⟨first, others, valid⟩ := pool.head listed
  obtain ⟨tables, entries, _⟩ := own.withTable inside missing first
  have now : held (s.withTable pgdir d t).mem pgdir = update (held s.mem pgdir) (.table d)
    (some t) := by
    unfold held
    rw [tables, entries, heldBy_table]
  unfold Own
  rw [now]
  exact own.adopt (fun q mem => listed ▸ List.mem_cons_of_mem t mem)
    (own.unheld_of_free first) others valid

/-! ### One round of `mappages` -/

/-- **Page `v` was mapped to `w`**, through the table it has or through a new one from the free
list. Nothing else changed. -/
structure Mapped (s s' : Phys) (pgdir : Page) (v : Nat) (w : Word) (t : Page) : Prop where
  entries : entry s'.mem pgdir = update (entry s.mem pgdir) v w
  tables : table s'.mem pgdir = update (table s.mem pgdir) (v / NPTENTRIES) (some t)
  via : (table s.mem pgdir (v / NPTENTRIES) = some t ∧ s'.free = s.free ∧ s'.calls = s.calls) ∨
    (table s.mem pgdir (v / NPTENTRIES) = none ∧ s.free = t :: s'.free ∧ s'.calls = s.calls + 1)
  kept : ∀ p, p ≠ pgdir → p ≠ t → s'.mem p = s.mem p
  deny : s'.deny = s.deny

/-- What one round of `mappages` stores. -/
abbrev mapOne (s : Phys) (pgdir : Page) (v : Nat) (pa : Page) (perm : Flags) :
    Except Fault (Phys × Bool) :=
  Phys.mapLoop pgdir perm 0 s (v * PGSIZE) pa

section

variable {v : Nat} (pa : Page) (perm : Flags) (inside : v < 2 ^ 20)

include inside

theorem mapOne_refused (missing : table s.mem pgdir (v / NPTENTRIES) = none)
    (fails : s.refuses = true) : mapOne s pgdir v pa perm = .ok (s.refused, false) := by
  unfold mapOne Phys.mapLoop
  rw [walk_refused (by rw [PDX_page inside]; exact missing) fails]

theorem mapOne_known (own : Own K s pgdir)
    (absent : present (entry s.mem pgdir v) = false) {t : Page}
    (here : table s.mem pgdir (v / NPTENTRIES) = some t) :
    ∃ s', mapOne s pgdir v pa perm = .ok (s', true) ∧
      Mapped s s' pgdir v (mkpte pa (perm ||| PTE_P)) t := by
  obtain ⟨tables, entries⟩ := own.set_table here (mkpte pa (perm ||| PTE_P))
  refine ⟨_, ?_, entries, ?_, .inl ⟨here, rfl, rfl⟩, fun p _ other => update_of_ne other _ _, rfl⟩
  · unfold mapOne Phys.mapLoop
    rw [walk_known true (by rw [PDX_page inside]; exact here)]
    simp only
    rw [PTX_page, ← entry_of_table here, if_neg (Bool.eq_false_iff.1 absent)]
  · rw [tables, ← here, update_eq_self]

theorem mapOne_new (own : Own K s pgdir) (pool : Pool K s)
    (missing : table s.mem pgdir (v / NPTENTRIES) = none) (serves : s.refuses = false) :
    ∃ s' t, mapOne s pgdir v pa perm = .ok (s', true) ∧
      Mapped s s' pgdir v (mkpte pa (perm ||| PTE_P)) t := by
  have small : v / NPTENTRIES < NPDENTRIES := by
    unfold NPTENTRIES NPDENTRIES
    omega
  have none : table s.mem pgdir (PDX (v * PGSIZE)) = none := by rw [PDX_page inside, missing]
  obtain ⟨t, listed, walk⟩ := walk_new none serves
  rw [PDX_page inside, PTX_page] at walk
  obtain ⟨tables, entries, others⟩ := own.withTable small missing (listed ▸ List.mem_cons_self)
  have here : table (s.withTable pgdir (v / NPTENTRIES) t).mem pgdir (v / NPTENTRIES) = some t := by
    rw [tables, update_self]
  have absent : entry (s.withTable pgdir (v / NPTENTRIES) t).mem pgdir v = 0 := by
    rw [entries, entry_of_missing missing]
  obtain ⟨sameTables, entries'⟩ :=
    (own.hang pool small missing listed).set_table here (mkpte pa (perm ||| PTE_P))
  refine ⟨(s.withTable pgdir (v / NPTENTRIES) t).set t (v % NPTENTRIES) (mkpte pa (perm ||| PTE_P)),
    t, ?_, ?_, ?_, .inr ⟨missing, listed, rfl⟩, fun p notDir notNew => ?_, rfl⟩
  · unfold mapOne Phys.mapLoop
    rw [walk]
    simp only
    rw [← entry_of_table here, absent, present_zero, if_neg Bool.false_ne_true]
  · rw [entries', entries]
  · rw [sameTables, tables]
  · exact (update_of_ne notNew _ _).trans (others p notDir notNew)

end

/-! ### What a mapping does to the directory's pages -/

variable {v : Nat} {w : Word} {t p : Page}

theorem Mapped.fewer (mapped : Mapped s s' pgdir v w t) : ∀ q ∈ s'.free, q ∈ s.free := by
  intro q mem
  rcases mapped.via with ⟨_, free, _⟩ | ⟨_, free, _⟩
  · rwa [free] at mem
  · rw [free]
    exact List.mem_cons_of_mem t mem

theorem Mapped.pool (mapped : Mapped s s' pgdir v w t) (pool : Pool K s) : Pool K s' := by
  refine ⟨?_, fun q mem => pool.valid q (mapped.fewer q mem)⟩
  rcases mapped.via with ⟨_, free, _⟩ | ⟨_, free, _⟩
  · rw [free]
    exact pool.nodup
  · exact (List.nodup_cons.1 (free ▸ pool.nodup)).2

theorem Mapped.held (mapped : Mapped s s' pgdir v w t) : held s'.mem pgdir =
    update (update (held s.mem pgdir) (.table (v / NPTENTRIES)) (some t)) (.frame v)
      (if v < UPAGES ∧ present w = true then some (PTE_ADDR w) else none) := by
  unfold Vm.held
  rw [mapped.entries, mapped.tables, heldBy_frame, heldBy_table]

theorem Mapped.tenure_table (mapped : Mapped s s' pgdir v w t) (own : Own K s pgdir)
    (pool : Pool K s) :
    Tenure K (update (Vm.held s.mem pgdir) (.table (v / NPTENTRIES)) (some t)) s'.free := by
  rcases mapped.via with ⟨here, free, _⟩ | ⟨_, listed, _⟩
  · have same : Vm.held s.mem pgdir (.table (v / NPTENTRIES)) = some t := here
    rw [← same, update_eq_self, free]
    exact own
  · obtain ⟨first, others, valid⟩ := pool.head listed
    exact own.adopt mapped.fewer (own.unheld_of_free first) others valid

/-- **A mapping keeps the directory's pages its own**, if a page mapped in the user part belonged to
nobody. -/
theorem Mapped.own {perm : Flags} (mapped : Mapped s s' pgdir v (mkpte p (perm ||| PTE_P)) t)
    (own : Own K s pgdir) (pool : Pool K s)
    (fresh : v < UPAGES → (∀ y, Vm.held s.mem pgdir y ≠ some p) ∧ p ∉ s.free ∧ K.Valid p) :
    Own K s' pgdir := by
  have tenure := mapped.tenure_table own pool
  unfold Own
  rw [mapped.held]
  by_cases low : v < UPAGES
  · obtain ⟨unheld, used, valid⟩ := fresh low
    rw [if_pos ⟨low, present_mkpte p perm⟩, PTE_ADDR_mkpte]
    refine tenure.adopt (fun _ mem => mem) (fun y here => ?_)
      (fun mem => used (mapped.fewer p mem)) valid
    by_cases same : y = .table (v / NPTENTRIES)
    · subst same
      rw [update_self] at here
      cases here
      rcases mapped.via with ⟨known, _⟩ | ⟨_, listed, _⟩
      · exact unheld (.table (v / NPTENTRIES)) known
      · exact used (listed ▸ List.mem_cons_self)
    · rw [update_of_ne same] at here
      exact unheld y here
  · have none : update (Vm.held s.mem pgdir) (.table (v / NPTENTRIES)) (some t)
      (.frame v) = none := by
      rw [update_of_ne (show Place.frame v ≠ .table _ from nofun)]
      exact if_neg fun both => low both.1
    rw [if_neg fun both => low both.1, ← none, update_eq_self]
    exact tenure

end Xv6.Vm
