/-
**Pages put into an address space.**

`allocuvm` and `copyuvm` take one free page after the other, give it its contents and map it.
`Placed` is one such round and `Filled` a number of them for consecutive pages. Each round may need
a page table as well, so that the calls of `kalloc` come in an order that the directory decides
beforehand: `growPlan` lists what each is for.
-/

import Xv6.Vm.Dealloc

namespace Xv6.Vm

open Lib
open Function (update update_self update_of_ne)

variable {K : Layout} {s s' s'' : Phys} {pgdir : Page}

/-! ### What the calls of `kalloc` are for -/

/-- What a page is allocated for: to be mapped or held by itself, as a page table of the kernel
part, or as one of the user part. -/
inductive Use
  | page
  | ktable
  | utable
  deriving DecidableEq

/-- The first of the planned calls that is refused, if any, is not `bad`. -/
def spared (bad : Use → Bool) (deny : Nat → Bool) : Nat → List Page → List Use → Bool
  | _, _, [] => true
  | calls, free, use :: plan =>
    if deny calls || free.isEmpty then !bad use else spared bad deny (calls + 1) free.tail plan

/-- `spared` from the state of the allocator. -/
def Phys.Spared (s : Phys) (bad : Use → Bool) (plan : List Use) : Prop :=
  spared bad s.deny s.calls s.free plan = true

instance (s : Phys) (bad : Use → Bool) (plan : List Use) : Decidable (s.Spared bad plan) :=
  inferInstanceAs (Decidable (_ = _))

theorem spared_refused {bad : Use → Bool} {use : Use} {plan : List Use} (fails : s.refuses = true) :
    s.Spared bad (use :: plan) ↔ bad use = false := by
  unfold Phys.refuses at fails
  unfold Phys.Spared spared
  rw [if_pos fails, Bool.not_eq_true']

theorem spared_taken {bad : Use → Bool} {use : Use} {plan : List Use} (serves : s.refuses = false) :
    s.Spared bad (use :: plan) ↔ s.taken.Spared bad plan := by
  unfold Phys.refuses at serves
  unfold Phys.Spared
  conv_lhs => unfold spared
  rw [if_neg (Bool.eq_false_iff.1 serves)]
  rfl

theorem spared_congr {bad : Use → Bool} {plan : List Use} (deny : s'.deny = s.deny)
    (calls : s'.calls = s.calls) (free : s'.free = s.free) :
    s'.Spared bad plan ↔ s.Spared bad plan := by
  unfold Phys.Spared
  rw [deny, calls, free]

/-- The calls made to map `n` pages from page `v` on, where the tables `tab` are there. -/
def growPlan (tab : Nat → Option Page) : Nat → Nat → List Use
  | _, 0 => []
  | v, n + 1 =>
    if v % NPTENTRIES = 0 ∧ tab (v / NPTENTRIES) = none then
      .page :: .utable :: growPlan tab (v + 1) n
    else .page :: growPlan tab (v + 1) n

theorem growPlan_congr {tab tab' : Nat → Option Page} (v n : Nat)
    (same : ∀ d, v ≤ d * NPTENTRIES → d * NPTENTRIES < v + n → tab' d = tab d) :
    growPlan tab' v n = growPlan tab v n := by
  induction n generalizing v with
  | zero => rfl
  | succ n ih =>
    have later := ih (v + 1) fun d from_ below => same d (Nat.le_of_succ_le from_) (by omega)
    unfold growPlan
    by_cases first : v % NPTENTRIES = 0
    · rw [same (v / NPTENTRIES) (by unfold NPTENTRIES at *; omega)
        (by unfold NPTENTRIES at *; omega), later]
    · rw [if_neg fun both => first both.1, if_neg fun both => first both.1, later]

/-! ### One page is put in -/

/-- **Page `v` is mapped to the first free page `p`, which now has contents `words`.** -/
structure Placed (K : Layout) (s s' : Phys) (pgdir : Page) (v : Nat) (p : Page) (flags : Flags)
    (words : Nat → Word) (t : Page) : Prop where
  taken : s.refuses = false
  listed : s.free = p :: s.taken.free
  entries : entry s'.mem pgdir = update (entry s.mem pgdir) v (mkpte p (flags ||| PTE_P))
  tables : table s'.mem pgdir = update (table s.mem pgdir) (v / NPTENTRIES) (some t)
  via :
    (table s.mem pgdir (v / NPTENTRIES) = some t ∧ s'.free = s.taken.free ∧
    s'.calls = s.taken.calls) ∨
    (table s.mem pgdir (v / NPTENTRIES) = none ∧ s.taken.refuses = false ∧
    s.taken.free = t :: s'.free ∧
      s'.calls = s.taken.calls + 1)
  words : s'.mem p = words
  kept : ∀ q, q ∉ s.free → q ≠ pgdir → (∀ d, table s.mem pgdir d ≠ some q) → s'.mem q = s.mem q
  deny : s'.deny = s.deny
  own : Own K s' pgdir
  pool : Pool K s'

theorem Own.fresh (own : Own K s pgdir) (pool : Pool K s) {p : Page}
    (listed : s.free = p :: s.taken.free) (words : Nat → Word) :
    Own K (s.taken.fill p words) pgdir ∧ Pool K (s.taken.fill p words) ∧
      table (s.taken.fill p words).mem pgdir = table s.mem pgdir ∧
      entry (s.taken.fill p words).mem pgdir = entry s.mem pgdir ∧
      (∀ y, held (s.taken.fill p words).mem pgdir y ≠ some p) := by
  obtain ⟨first, others, valid⟩ := pool.head listed
  have other : ∀ q, q ≠ p → (s.taken.fill p words).mem q = s.mem q :=
    fun q different => update_of_ne different _ _
  have dir : (s.taken.fill p words).mem pgdir = s.mem pgdir :=
    other pgdir fun same => own.dir_used (same ▸ first)
  have tables : ∀ d t, table s.mem pgdir d = some t → (s.taken.fill p words).mem t = s.mem t :=
    fun d t here => other t fun same => own.table_used here (same ▸ first)
  have fewer : ∀ q ∈ s.taken.free, q ∈ s.free := fun q mem => listed ▸ List.mem_cons_of_mem p mem
  have same : held (s.taken.fill p words).mem pgdir = held s.mem pgdir := held_congr dir tables
  refine ⟨?_, ⟨?_, fun q mem => pool.valid q (fewer q mem)⟩, table_congr dir,
    entry_congr dir tables, fun y => ?_⟩
  · unfold Own
    rw [same]
    exact ⟨own.toSole.mono fewer, own.valid⟩
  · exact (List.nodup_cons.1 (listed ▸ pool.nodup)).2
  · rw [same]
    exact own.unheld_of_free first y

/-- **A round of `allocuvm` or `copyuvm`**: the page is mapped, unless its page table is missing and
cannot be had. -/
theorem Own.place (own : Own K s pgdir) (pool : Pool K s) {v : Nat} (low : v < UPAGES)
    (absent : present (entry s.mem pgdir v) = false) {p : Page} (taken : s.refuses = false)
    (listed : s.free = p :: s.taken.free) (flags : Flags) (words : Nat → Word) :
    (∃ s' t, mapOne (s.taken.fill p words) pgdir v p flags = .ok (s', true) ∧
    Placed K s s' pgdir v p flags words t) ∨
      (table s.mem pgdir (v / NPTENTRIES) = none ∧ s.taken.refuses = true ∧
        mapOne (s.taken.fill p words) pgdir v p flags =
        .ok ((s.taken.fill p words).refused, false)) := by
  obtain ⟨own₁, pool₁, sameTable, sameEntry, unheld⟩ := own.fresh pool listed words
  obtain ⟨first, others, valid⟩ := pool.head listed
  have inside : v < 2 ^ 20 := Nat.lt_of_lt_of_le low (by decide)
  have absent₁ : present (entry (s.taken.fill p words).mem pgdir v) = false := by
    rw [sameEntry, absent]
  have placed : ∀ {s' t}, Mapped (s.taken.fill p words) s' pgdir v (mkpte p (flags ||| PTE_P)) t →
      ((s.taken.fill p words).refuses = false ∨
      table (s.taken.fill p words).mem pgdir (v / NPTENTRIES) = some t) →
      Placed K s s' pgdir v p flags words t := by
    intro s' t mapped serves
    have notTable : p ≠ t := by
      rintro rfl
      rcases mapped.via with ⟨here, _⟩ | ⟨_, free, _⟩
      · exact unheld (.table _) here
      · exact others (free ▸ List.mem_cons_self)
    refine ⟨taken,
      listed, by
        rw [mapped.entries, sameEntry], by
          rw [mapped.tables, sameTable], ?_, ?_, fun q used notDir none => ?_,
      mapped.deny, mapped.own own₁ pool₁ fun _ => ⟨unheld, others, valid⟩, mapped.pool pool₁⟩
    · rw [← sameTable]
      rcases mapped.via with ⟨here, free, calls⟩ | ⟨missing, free, calls⟩
      · exact .inl ⟨here, free, calls⟩
      · refine .inr ⟨missing, serves.resolve_right ?_, free, calls⟩
        rw [missing]
        exact nofun
    · rw [mapped.kept p (fun same => own.dir_used (same ▸ first)) notTable]
      exact update_self p words s.mem
    · have notNew : q ≠ t := by
        rintro rfl
        rcases mapped.via with ⟨here, _⟩ | ⟨_, free, _⟩
        · exact none _ (sameTable ▸ here)
        · exact used (listed ▸ List.mem_cons_of_mem p (free ▸ List.mem_cons_self))
      rw [mapped.kept q notDir notNew]
      exact update_of_ne (fun same : q = p => used (same ▸ first)) _ _
  cases here : table (s.taken.fill p words).mem pgdir (v / NPTENTRIES) with
  | some t =>
    obtain ⟨s', done, mapped⟩ := mapOne_known p flags inside own₁ absent₁ here
    exact .inl ⟨s', t, done, placed mapped (.inr here)⟩
  | none =>
    cases serves : s.taken.refuses with
    | false =>
      obtain ⟨s', t, done, mapped⟩ := mapOne_new p flags inside own₁ pool₁ here serves
      exact .inl ⟨s', t, done, placed mapped (.inl serves)⟩
    | true => exact .inr ⟨sameTable ▸ here, rfl, mapOne_refused p flags inside here serves⟩

/-! ### Pages put in one after the other -/

/-- **The pages `v`, …, `v + n - 1` are mapped to free pages**, with the flags and contents given
for each. -/
structure Filled (K : Layout) (s s' : Phys) (pgdir : Page) (v n : Nat) (flags : Nat → Flags)
    (words : Nat → Nat → Word) : Prop where
  on : ∀ u, v ≤ u → u < v + n →
    ∃ p ∈ s.free, entry s'.mem pgdir u = mkpte p (flags u ||| PTE_P) ∧ s'.mem p = words u
  off : ∀ u, ¬ (v ≤ u ∧ u < v + n) → entry s'.mem pgdir u = entry s.mem pgdir u
  known : ∀ d t, table s.mem pgdir d = some t → table s'.mem pgdir d = some t
  fresh : ∀ d t, table s'.mem pgdir d = some t → table s.mem pgdir d = some t ∨
    (t ∈ s.free ∧ v / NPTENTRIES ≤ d ∧ d * NPTENTRIES < v + n)
  kept : ∀ q, q ∉ s.free → q ≠ pgdir → (∀ d, table s.mem pgdir d ≠ some q) → s'.mem q = s.mem q
  fewer : ∀ q ∈ s'.free, q ∈ s.free
  all : ∀ q ∈ s.free, q ∈ s'.free ∨ ∃ x, held s'.mem pgdir x = some q
  deny : s'.deny = s.deny
  own : Own K s' pgdir
  pool : Pool K s'

theorem Filled.nil (own : Own K s pgdir) (pool : Pool K s) (v : Nat) (flags : Nat → Flags)
    (words : Nat → Nat → Word) : Filled K s s pgdir v 0 flags words where
  on u from_ below := by omega
  off _ _ := rfl
  known _ _ here := here
  fresh _ _ here := .inl here
  kept _ _ _ _ := rfl
  fewer _ mem := mem
  all _ mem := .inl mem
  deny := rfl
  own := own
  pool := pool

section

variable {v : Nat} {p t : Page} {flags : Flags} {words : Nat → Word}

theorem Placed.mem_free (placed : Placed K s s' pgdir v p flags words t) : p ∈ s.free :=
  placed.listed ▸ List.mem_cons_self

theorem Placed.fewer (placed : Placed K s s' pgdir v p flags words t) :
    ∀ q ∈ s'.free, q ∈ s.free := by
  intro q mem
  rw [placed.listed]
  refine List.mem_cons_of_mem p ?_
  rcases placed.via with ⟨_, free, _⟩ | ⟨_, _, free, _⟩
  · rwa [free] at mem
  · rw [free]
    exact List.mem_cons_of_mem t mem

theorem Placed.frame (placed : Placed K s s' pgdir v p flags words t) (low : v < UPAGES) :
    held s'.mem pgdir (.frame v) = some p := by
  have is : entry s'.mem pgdir v = mkpte p (flags ||| PTE_P) := by rw [placed.entries, update_self]
  show (if v < UPAGES ∧
    present (entry s'.mem pgdir v) = true then some (PTE_ADDR (entry s'.mem pgdir v)) else none) = _
  rw [is, if_pos ⟨low, present_mkpte p flags⟩, PTE_ADDR_mkpte]

theorem Placed.known (placed : Placed K s s' pgdir v p flags words t) {d : Nat} {t' : Page}
    (here : table s.mem pgdir d = some t') : table s'.mem pgdir d = some t' := by
  rw [placed.tables]
  by_cases same : d = v / NPTENTRIES
  · subst same
    rw [update_self]
    rcases placed.via with ⟨known, _⟩ | ⟨missing, _⟩
    · rw [← known, here]
    · exact nomatch missing.symm.trans here
  · rw [update_of_ne same, here]

theorem Placed.fresh (placed : Placed K s s' pgdir v p flags words t) {d : Nat} {t' : Page}
    (here : table s'.mem pgdir d = some t') :
    table s.mem pgdir d = some t' ∨ (t' ∈ s.free ∧ d = v / NPTENTRIES) := by
  rw [placed.tables] at here
  by_cases same : d = v / NPTENTRIES
  · subst same
    rw [update_self] at here
    cases here
    rcases placed.via with ⟨known, _⟩ | ⟨_, _, free, _⟩
    · exact .inl known
    · refine .inr ⟨?_, rfl⟩
      rw [placed.listed, free]
      exact List.mem_cons_of_mem p List.mem_cons_self
  · rw [update_of_ne same] at here
    exact .inl here

end

theorem Filled.cons {v n : Nat} {p t : Page} {flags : Nat → Flags} {words : Nat → Nat → Word}
    (low : v < UPAGES) (first : Placed K s s' pgdir v p (flags v) (words v) t)
    (rest : Filled K s' s'' pgdir (v + 1) n flags words) :
    Filled K s s'' pgdir v (n + 1) flags words := by
  have frame := first.frame low
  have unlisted : p ∉ s'.free := first.own.used frame
  have notDir : p ≠ pgdir :=
    fun same => nomatch first.own.inj (y := .dir) frame (congrArg some same.symm)
  have notTable : ∀ d, table s'.mem pgdir d ≠ some p :=
    fun d same => nomatch first.own.inj (x := .frame v) (y := .table d) frame same
  have here : entry s''.mem pgdir v = mkpte p (flags v ||| PTE_P) := by
    rw [rest.off v (by omega), first.entries, update_self]
  refine ⟨?_, ?_, fun d t' is => rest.known d t' (first.known is), ?_, ?_,
    fun q mem => first.fewer q (rest.fewer q mem), ?_, rest.deny.trans first.deny,
    rest.own, rest.pool⟩
  · intro u from_ below
    by_cases same : u = v
    · subst same
      exact ⟨p, first.mem_free, here, (rest.kept p unlisted notDir notTable).trans first.words⟩
    · obtain ⟨q, mem, is, has⟩ := rest.on u (by omega) (by omega)
      exact ⟨q, first.fewer q mem, is, has⟩
  · intro u outside
    rw [rest.off u (by omega), first.entries, update_of_ne (by omega)]
  · intro d t' is
    rcases rest.fresh d t' is with known | ⟨mem, from_, below⟩
    · rcases first.fresh known with known | ⟨mem, rfl⟩
      · exact .inl known
      · refine .inr ⟨mem, Nat.le_refl _, ?_⟩
        unfold NPTENTRIES at *
        omega
    · refine .inr ⟨first.fewer t' mem, ?_, by omega⟩
      unfold NPTENTRIES at *
      omega
  · intro q used other none
    rw [rest.kept q (fun mem => used (first.fewer q mem)) other fun d is => ?_,
      first.kept q used other none]
    rcases first.fresh is with known | ⟨mem, _⟩
    · exact none d known
    · exact used mem
  · intro q mem
    by_cases same : q = p
    · subst same
      refine .inr ⟨.frame v, ?_⟩
      show (if v < UPAGES ∧
        present (entry s''.mem pgdir v) = true then some (PTE_ADDR (entry s''.mem pgdir v))
        else none) = _
      rw [here, if_pos ⟨low, present_mkpte q (flags v)⟩, PTE_ADDR_mkpte]
    · rw [first.listed] at mem
      have mem : q ∈ s.taken.free := (List.mem_cons.1 mem).resolve_left same
      rcases first.via with ⟨_, free, _⟩ | ⟨_, _, free, _⟩
      · exact rest.all q (free ▸ mem)
      · rw [free] at mem
        rcases List.mem_cons.1 mem with rfl | mem
        · refine .inr ⟨.table (v / NPTENTRIES), rest.known _ _ ?_⟩
          rw [first.tables, update_self]
        · exact rest.all q mem

/-! ### The plan is followed -/

/-- A page that is not the first of its table's has its table. -/
def Seated (s : Phys) (pgdir : Page) (v : Nat) : Prop :=
  v % NPTENTRIES ≠ 0 → table s.mem pgdir (v / NPTENTRIES) ≠ none

theorem Seated.missing {v : Nat} (seated : Seated s pgdir v)
    (missing : table s.mem pgdir (v / NPTENTRIES) = none) : v % NPTENTRIES = 0 :=
  of_not_not fun inner => seated inner missing

theorem Placed.seated {v : Nat} {p t : Page} {flags : Flags} {words : Nat → Word}
    (placed : Placed K s s' pgdir v p flags words t) : Seated s' pgdir (v + 1) := by
  intro inner
  have same : (v + 1) / NPTENTRIES = v / NPTENTRIES := by
    unfold NPTENTRIES at *
    omega
  rw [placed.tables, same, update_self]
  exact nofun

theorem Placed.spared {v n : Nat} {p t : Page} {flags : Flags} {words : Nat → Word}
    (placed : Placed K s s' pgdir v p flags words t) (bad : Use → Bool) (plan : List Use)
    (seated : Seated s pgdir v) :
    s.Spared bad (growPlan (table s.mem pgdir) v (n + 1) ++ plan) ↔
      s'.Spared bad (growPlan (table s'.mem pgdir) (v + 1) n ++ plan) := by
  have later : growPlan (table s'.mem pgdir) (v + 1) n = growPlan (table s.mem pgdir)
    (v + 1) n := by
    refine growPlan_congr _ _ fun d from_ _ => ?_
    rw [placed.tables, update_of_ne]
    rintro rfl
    unfold NPTENTRIES at from_
    omega
  rw [later]
  conv_lhs => unfold growPlan
  rcases placed.via with ⟨here, free, calls⟩ | ⟨missing, serves, free, calls⟩
  · have known : ¬ (v % NPTENTRIES = 0 ∧ table s.mem pgdir (v / NPTENTRIES) = none) := by
      rintro ⟨_, missing⟩
      exact nomatch missing.symm.trans here
    rw [if_neg known, List.cons_append, spared_taken placed.taken]
    exact (spared_congr (s := s.taken) placed.deny calls free).symm
  · rw [if_pos ⟨seated.missing missing, missing⟩, List.cons_append, List.cons_append,
      spared_taken placed.taken, spared_taken serves]
    refine (spared_congr (s := s.taken.taken) placed.deny calls ?_).symm
    show s'.free = s.taken.free.tail
    rw [free]
    rfl

end Xv6.Vm
