/-
**`setupkvm`: a directory with the kernel part.**

The kernel part is four ranges of pages, each mapped by one call of `mappages`. `Ranged` is what
such a call does when it succeeds. A failed call leaves the tables it made where they are, and
`setupkvm` then forgets the directory: its pages are neither free nor reachable. A directory that is
complete maps every kernel page as `kernelEntry` says and nothing else.
-/

import Xv6.Vm.Alloc

namespace Xv6.Vm

open Lib
open Function (update update_self update_of_ne)

variable {K : Layout} {s s' s'' : Phys} {pgdir : Page}

/-! ### A range of pages -/

/-- Pages are taken off the free list for the directory, and nothing but these, the directory and
its tables changes. -/
structure Drawn (K : Layout) (s s' : Phys) (pgdir : Page) : Prop where
  kept : ∀ q, q ∉ s.free → q ≠ pgdir → (∀ d, table s.mem pgdir d ≠ some q) → s'.mem q = s.mem q
  fewer : ∀ q ∈ s'.free, q ∈ s.free
  fresh : ∀ d t, table s'.mem pgdir d = some t → table s.mem pgdir d = some t ∨ t ∈ s.free
  deny : s'.deny = s.deny
  own : Own K s' pgdir
  pool : Pool K s'

theorem Drawn.trans (first : Drawn K s s' pgdir) (second : Drawn K s' s'' pgdir) :
    Drawn K s s'' pgdir where
  kept q used notDir none := by
    rw [second.kept q (fun mem => used (first.fewer q mem)) notDir fun d is => ?_,
      first.kept q used notDir none]
    rcases first.fresh d q is with known | mem
    · exact none d known
    · exact used mem
  fewer q mem := first.fewer q (second.fewer q mem)
  fresh d t is := by
    rcases second.fresh d t is with known | mem
    · exact first.fresh d t known
    · exact .inr (first.fewer t mem)
  deny := second.deny.trans first.deny
  own := second.own
  pool := second.pool

theorem Drawn.refl (own : Own K s pgdir) (pool : Pool K s) : Drawn K s s pgdir :=
  ⟨fun _ _ _ _ => rfl, fun _ mem => mem, fun _ _ is => .inl is, rfl, own, pool⟩

/-- **The pages `v`, …, `v + n - 1` are mapped to the physical pages from `pa` on.** -/
structure Ranged (K : Layout) (s s' : Phys) (pgdir : Page) (v n : Nat) (pa : Page) (perm : Flags) :
    Prop
    extends Drawn K s s' pgdir where
  on : ∀ i < n, entry s'.mem pgdir (v + i) = mkpte (pa + BitVec.ofNat 20 i) (perm ||| PTE_P)
  off : ∀ u, ¬ (v ≤ u ∧ u < v + n) → entry s'.mem pgdir u = entry s.mem pgdir u
  tables : ∀ d, ¬ (v / NPTENTRIES ≤ d ∧ d * NPTENTRIES < v + n) →
    table s'.mem pgdir d = table s.mem pgdir d
  all : ∀ q ∈ s.free, q ∈ s'.free ∨ ∃ d, table s'.mem pgdir d = some q
  known : ∀ d t, table s.mem pgdir d = some t → table s'.mem pgdir d = some t

/-- The calls made to map `n` pages of the kernel part from page `v` on. -/
def mapPlan (tab : Nat → Option Page) : Nat → Nat → List Use
  | _, 0 => []
  | v, n + 1 =>
    if v % NPTENTRIES = 0 ∧ tab (v / NPTENTRIES) = none then .ktable :: mapPlan tab (v + 1) n
    else mapPlan tab (v + 1) n

theorem mapPlan_succ (tab : Nat → Option Page) (v n : Nat) : mapPlan tab v (n + 1) =
    if v % NPTENTRIES = 0 ∧ tab (v / NPTENTRIES) = none then .ktable :: mapPlan tab (v + 1) n
    else mapPlan tab (v + 1) n := rfl

theorem mapPlan_append (tab : Nat → Option Page) (v a b : Nat) :
    mapPlan tab v (a + b) = mapPlan tab v a ++ mapPlan tab (v + a) b := by
  induction a generalizing v with
  | zero => rw [Nat.zero_add]; rfl
  | succ a ih =>
    rw [show a + 1 + b = a + b + 1 by omega, mapPlan_succ, mapPlan_succ, ih (v + 1),
      show v + 1 + a = v + (a + 1) by omega]
    split <;> rfl

theorem mapPlan_congr {tab tab' : Nat → Option Page} (v n : Nat)
    (same : ∀ d, v ≤ d * NPTENTRIES → tab' d = tab d) : mapPlan tab' v n = mapPlan tab v n := by
  induction n generalizing v with
  | zero => rfl
  | succ n ih =>
    have later := ih (v + 1) fun d from_ => same d (Nat.le_of_succ_le from_)
    unfold mapPlan
    by_cases first : v % NPTENTRIES = 0
    · rw [same (v / NPTENTRIES) (by unfold NPTENTRIES at *; omega), later]
    · rw [if_neg fun both => first both.1, if_neg fun both => first both.1, later]

theorem mapLoop_succ (perm : Flags) (n : Nat) (s : Phys) (a : Nat) (pa : Page) :
    Phys.mapLoop pgdir perm (n + 1) s a pa = (Phys.mapLoop pgdir perm 0 s a pa >>= fun x =>
      if x.2 then Phys.mapLoop pgdir perm n x.1 ((a + PGSIZE) % 2 ^ 32)
        (pa + 1) else .ok (x.1, false)) := by
  have one := Phys.mapLoop.eq_def pgdir perm 0 s a pa
  simp only at one
  rw [one]
  conv_lhs => unfold Phys.mapLoop
  rcases s.walkpgdir pgdir a true with ⟨s₁, _ | ⟨pgtab, i⟩⟩
  · rfl
  · simp only
    by_cases is : present (s₁.mem pgtab i) = true
    · rw [if_pos is, if_pos is]
      rfl
    · rw [if_neg is, if_neg is]
      rfl

theorem mapOne_cases {v : Nat} (pa : Page) (perm : Flags) (own : Own K s pgdir) (pool : Pool K s)
    (inside : v < 2 ^ 20) (absent : present (entry s.mem pgdir v) = false) :
    (∃ s' t, mapOne s pgdir v pa perm = .ok (s', true) ∧
    Mapped s s' pgdir v (mkpte pa (perm ||| PTE_P)) t ∧
      (table s.mem pgdir (v / NPTENTRIES) = none → s.refuses = false)) ∨
    (table s.mem pgdir (v / NPTENTRIES) = none ∧ s.refuses = true ∧
    mapOne s pgdir v pa perm = .ok (s.refused, false)) := by
  cases here : table s.mem pgdir (v / NPTENTRIES) with
  | some t =>
    obtain ⟨s', done, mapped⟩ := mapOne_known pa perm inside own absent here
    exact .inl ⟨s', t, done, mapped, nofun⟩
  | none =>
    cases serves : s.refuses with
    | false =>
      obtain ⟨s', t, done, mapped⟩ := mapOne_new pa perm inside own pool here serves
      exact .inl ⟨s', t, done, mapped, fun _ => rfl⟩
    | true => exact .inr ⟨rfl, rfl, mapOne_refused pa perm inside here serves⟩

theorem Mapped.drawn {v : Nat} {p t : Page} {perm : Flags}
    (mapped : Mapped s s' pgdir v (mkpte p (perm ||| PTE_P)) t) (own : Own K s pgdir)
    (pool : Pool K s) (high : UPAGES ≤ v) : Drawn K s s' pgdir where
  kept q used notDir none := by
    refine mapped.kept q notDir ?_
    rintro rfl
    rcases mapped.via with ⟨here, _⟩ | ⟨_, listed, _⟩
    · exact none _ here
    · exact used (listed ▸ List.mem_cons_self)
  fewer := mapped.fewer
  fresh d t' is := by
    rw [mapped.tables] at is
    by_cases same : d = v / NPTENTRIES
    · subst same
      rw [update_self] at is
      cases is
      rcases mapped.via with ⟨here, _⟩ | ⟨_, listed, _⟩
      · exact .inl here
      · exact .inr (listed ▸ List.mem_cons_self)
    · rw [update_of_ne same] at is
      exact .inl is
  deny := mapped.deny
  own := mapped.own own pool fun low => absurd low (Nat.not_lt.2 high)
  pool := mapped.pool pool

theorem Mapped.ranged {v : Nat} {p t : Page} {perm : Flags}
    (mapped : Mapped s s' pgdir v (mkpte p (perm ||| PTE_P)) t) (own : Own K s pgdir)
    (pool : Pool K s) (high : UPAGES ≤ v) : Ranged K s s' pgdir v 1 p perm where
  toDrawn := mapped.drawn own pool high
  on i less := by
    have zero : i = 0 := by omega
    subst zero
    rw [mapped.entries, Nat.add_zero, update_self]
    congr 1
    exact (BitVec.add_zero p).symm
  off u outside := by rw [mapped.entries, update_of_ne (by omega)]
  tables d outside := by
    rw [mapped.tables, update_of_ne]
    rintro rfl
    unfold NPTENTRIES at outside
    omega
  all q mem := by
    rcases mapped.via with ⟨_, free, _⟩ | ⟨_, listed, _⟩
    · exact .inl (free ▸ mem)
    · rw [listed] at mem
      rcases List.mem_cons.1 mem with rfl | mem
      · exact .inr ⟨v / NPTENTRIES, by rw [mapped.tables, update_self]⟩
      · exact .inl mem
  known d t' here := by
    rw [mapped.tables]
    by_cases same : d = v / NPTENTRIES
    · subst same
      rw [update_self]
      rcases mapped.via with ⟨known, _⟩ | ⟨missing, _⟩
      · rw [← known, here]
      · exact nomatch missing.symm.trans here
    · rw [update_of_ne same, here]

theorem Ranged.append {v n m : Nat} {pa : Page} {perm : Flags}
    (first : Ranged K s s' pgdir v n pa perm)
    (second : Ranged K s' s'' pgdir (v + n) m (pa + BitVec.ofNat 20 n) perm) :
    Ranged K s s'' pgdir v (n + m) pa perm where
  toDrawn := first.toDrawn.trans second.toDrawn
  on i less := by
    by_cases early : i < n
    · rw [second.off (v + i) (by omega), first.on i early]
    · have := second.on (i - n) (by omega)
      rw [show v + n + (i - n) = v +
        i by omega, BitVec.add_assoc, ← BitVec.ofNat_add, Nat.add_sub_cancel' (by omega)] at this
      exact this
  off u outside := by rw [second.off u (by omega), first.off u (by omega)]
  tables d outside := by
    rw [second.tables d fun both => outside ⟨?_, by omega⟩,
      first.tables d fun both => outside ⟨both.1, by omega⟩]
    exact Nat.le_trans (Nat.div_le_div_right (Nat.le_add_right v n)) both.1
  all q mem := by
    rcases first.all q mem with mem | ⟨d, here⟩
    · exact second.all q mem
    · exact .inr ⟨d, second.known d q here⟩
  known d t here := second.known d t (first.known d t here)

theorem Ranged.seated {v n : Nat} {pa : Page} {perm : Flags}
    (ranged : Ranged K s s' pgdir v (n + 1) pa perm) : Seated s' pgdir (v + n + 1) := by
  intro inner
  have last : present (entry s'.mem pgdir (v + n)) = true := by
    rw [ranged.on n (Nat.lt_succ_self n), present_mkpte]
  obtain ⟨t, here⟩ := exists_table last
  have same : (v + n + 1) / NPTENTRIES = (v + n) / NPTENTRIES := by
    unfold NPTENTRIES at *
    omega
  rw [same, here]
  exact nofun

theorem Mapped.mapPlan_eq {v : Nat} {w : Word} {t : Page} (mapped : Mapped s s' pgdir v w t)
    (n : Nat) :
    mapPlan (table s'.mem pgdir) (v + 1) n = mapPlan (table s.mem pgdir) (v + 1) n := by
  refine mapPlan_congr _ _ fun d from_ => ?_
  rw [mapped.tables, update_of_ne]
  rintro rfl
  unfold NPTENTRIES at from_
  omega

theorem Mapped.spared {v : Nat} {w : Word} {t : Page} (mapped : Mapped s s' pgdir v w t)
    (seated : Seated s pgdir v)
    (serves : table s.mem pgdir (v / NPTENTRIES) = none → s.refuses = false) (n : Nat)
    (bad : Use → Bool) (plan : List Use) :
    s.Spared bad (mapPlan (table s.mem pgdir) v (n + 1) ++ plan) ↔
      s'.Spared bad (mapPlan (table s'.mem pgdir) (v + 1) n ++ plan) := by
  rw [mapped.mapPlan_eq]
  conv_lhs => unfold mapPlan
  rcases mapped.via with ⟨here, free, calls⟩ | ⟨missing, free, calls⟩
  · have known : ¬ (v % NPTENTRIES = 0 ∧ table s.mem pgdir (v / NPTENTRIES) = none) := by
      rintro ⟨_, missing⟩
      exact nomatch missing.symm.trans here
    rw [if_neg known]
    exact (spared_congr mapped.deny calls free).symm
  · rw [if_pos ⟨seated.missing missing, missing⟩, List.cons_append, spared_taken (serves missing)]
    refine (spared_congr (s := s.taken) mapped.deny calls ?_).symm
    show s'.free = s.free.tail
    rw [free]
    rfl

/-- The allocator after calls that were all served. -/
def Phys.Advanced (s s' : Phys) (plan : List Use) : Prop :=
  s'.calls = s.calls + plan.length ∧ s'.free = s.free.drop plan.length

theorem Phys.Advanced.append {plan plan' : List Use} (first : s.Advanced s' plan)
    (second : s'.Advanced s'' plan') : s.Advanced s'' (plan ++ plan') := by
  unfold Phys.Advanced
  rw [second.1, second.2, first.1, first.2, List.drop_drop, List.length_append]
  exact ⟨Nat.add_assoc _ _ _, rfl⟩

theorem Mapped.advanced {v : Nat} {w : Word} {t : Page} (mapped : Mapped s s' pgdir v w t)
    (seated : Seated s pgdir v) : s.Advanced s' (mapPlan (table s.mem pgdir) v 1) := by
  rw [mapPlan_succ]
  rcases mapped.via with ⟨here, free, calls⟩ | ⟨missing, free, calls⟩
  · rw [if_neg fun both => nomatch both.2.symm.trans here]
    exact ⟨calls, free⟩
  · rw [if_pos ⟨seated.missing missing, missing⟩]
    refine ⟨calls, ?_⟩
    rw [free]
    rfl

theorem spared_missing {v n : Nat} (seated : Seated s pgdir v)
    (missing : table s.mem pgdir (v / NPTENTRIES) = none) (refuses : s.refuses = true)
    (bad : Use → Bool) (plan : List Use) :
    s.Spared bad (mapPlan (table s.mem pgdir) v (n + 1) ++ plan) ↔ bad .ktable = false := by
  unfold mapPlan
  rw [if_pos ⟨seated.missing missing, missing⟩, List.cons_append]
  exact spared_refused refuses

theorem Drawn.refused (own : Own K s pgdir) (pool : Pool K s) : Drawn K s s.refused pgdir :=
  ⟨fun _ _ _ _ => rfl, fun _ mem => mem, fun _ _ is => .inl is, rfl, own.refused, pool.refused⟩

/-- **A call of `mappages` on kernel pages**: every page is mapped, or a page table is refused. -/
theorem mapLoop_cases (perm : Flags) (n : Nat) (s : Phys) (v : Nat) (pa : Page)
    (own : Own K s pgdir) (pool : Pool K s) (seated : Seated s pgdir v) (high : UPAGES ≤ v)
    (inside : v + n < 2 ^ 20)
    (absent : ∀ u, v ≤ u → u < v + (n + 1) → present (entry s.mem pgdir u) = false) :
    (∃ s', Phys.mapLoop pgdir perm n s (v * PGSIZE) pa = .ok (s', true) ∧
    Ranged K s s' pgdir v (n + 1) pa perm ∧
      s.Advanced s' (mapPlan (table s.mem pgdir) v (n + 1)) ∧
      ∀ bad plan, s.Spared bad (mapPlan (table s.mem pgdir) v (n + 1) ++ plan) ↔
      s'.Spared bad plan) ∨
    (∃ s', Phys.mapLoop pgdir perm n s (v * PGSIZE) pa = .ok (s', false) ∧ Drawn K s s' pgdir ∧
      ∀ bad plan, s.Spared bad (mapPlan (table s.mem pgdir) v (n + 1) ++ plan) ↔
      bad .ktable = false) := by
  induction n generalizing s v pa with
  | zero =>
    rcases mapOne_cases pa perm own pool (show v < 2 ^ 20 from inside)
      (absent v (Nat.le_refl v) (by omega)) with
      ⟨s', t, done, mapped, serves⟩ | ⟨missing, refuses, done⟩
    · exact .inl ⟨s', done, mapped.ranged own pool high, mapped.advanced seated,
        fun bad plan => mapped.spared seated serves 0 bad plan⟩
    · exact .inr ⟨s.refused, done, .refused own pool, spared_missing seated missing refuses⟩
  | succ n ih =>
    have wrap : (v * PGSIZE + PGSIZE) % 2 ^ 32 = (v + 1) * PGSIZE := by
      unfold PGSIZE
      omega
    rw [mapLoop_succ, wrap]
    rcases mapOne_cases pa perm own pool (show v < 2 ^ 20 by omega)
      (absent v (Nat.le_refl v) (by omega)) with
      ⟨s₁, t, done, mapped, serves⟩ | ⟨missing, refuses, done⟩
    · have later :
          ∀ u, v + 1 ≤ u → u < v + 1 + (n + 1) → present (entry s₁.mem pgdir u) = false := by
        intro u from_ below
        rw [mapped.entries, update_of_ne (by omega)]
        exact absent u (by omega) (by omega)
      have first := mapped.ranged own pool high
      have spared := mapped.spared seated serves (n + 1)
      rw [show Phys.mapLoop pgdir perm 0 s (v * PGSIZE) pa = .ok (s₁, true) from done, ok_bind]
      simp only [if_true]
      rcases ih s₁ (v + 1) (pa + 1) first.own first.pool first.seated (by omega)
        (by omega) later with
        ⟨s', is, ranged, advanced, rest⟩ | ⟨s', is, drawn, rest⟩
      · have later := mapped.mapPlan_eq (n + 1)
        refine .inl ⟨s', is, ?_, ?_, fun bad plan => (spared bad plan).trans (rest bad plan)⟩
        · rw [show n + 1 + 1 = 1 + (n + 1) by omega]
          exact first.append ranged
        · rw [later] at advanced
          rw [show n + 1 + 1 = 1 + (n + 1) by omega, mapPlan_append]
          exact (mapped.advanced seated).append advanced
      · exact .inr ⟨s', is, first.toDrawn.trans drawn,
          fun bad plan => (spared bad plan).trans (rest bad plan)⟩
    · refine .inr ⟨s.refused, ?_, .refused own pool, spared_missing seated missing refuses⟩
      rw [show Phys.mapLoop pgdir perm 0 s (v * PGSIZE) pa = .ok (s.refused, false) from done]
      rfl

/-! ### The kernel part -/

/-- The first page of the devices. -/
def DEVPAGE : Nat := DEVSPACE / PGSIZE

/-- **The entry of each page in a directory that has its kernel part only.** -/
def kernelEntry (K : Layout) (v : Nat) : Word :=
  if v < UPAGES then 0
  else if v < UPAGES + EXTMEM / PGSIZE then mkpte (BitVec.ofNat 20 (v - UPAGES)) (PTE_W ||| PTE_P)
  else if v < UPAGES + K.data / PGSIZE then mkpte (BitVec.ofNat 20 (v - UPAGES)) (0 ||| PTE_P)
  else if v < UPAGES + PHYSTOP / PGSIZE then mkpte (BitVec.ofNat 20 (v - UPAGES)) (PTE_W ||| PTE_P)
  else if v < DEVPAGE then 0
  else if v < 2 ^ 20 then mkpte (BitVec.ofNat 20 v) (PTE_W ||| PTE_P)
  else 0

/-- The kernel part is built up to page `v`, by calls of `kalloc` as planned. -/
structure Built (K : Layout) (s₀ s : Phys) (pgdir : Page) (v : Nat) (plan : List Use) : Prop where
  drawn : Drawn K s₀ s pgdir
  entries : ∀ u, entry s.mem pgdir u = if u < v then kernelEntry K u else 0
  above : ∀ d, v ≤ d * NPTENTRIES → table s.mem pgdir d = none
  low : ∀ d, d * NPTENTRIES < UPAGES → table s.mem pgdir d = none
  all : ∀ q ∈ s₀.free, q ∈ s.free ∨ ∃ d, table s.mem pgdir d = some q
  advanced : s₀.Advanced s plan
  spared : ∀ bad rest, s₀.Spared bad (plan ++ rest) ↔ s.Spared bad rest
  seated : Seated s pgdir v

theorem Built.step {s₀ : Phys} {v n : Nat} {plan : List Use} (built : Built K s₀ s pgdir v plan)
    (pa : Page) (perm : Flags) (high : UPAGES ≤ v) (inside : v + n < 2 ^ 20)
    (matches' : ∀ i < n + 1, kernelEntry K (v + i) = mkpte (pa + BitVec.ofNat 20 i)
    (perm ||| PTE_P)) :
    (∃ s', Phys.mapLoop pgdir perm n s (v * PGSIZE) pa = .ok (s', true) ∧
      Built K s₀ s' pgdir (v + (n + 1)) (plan ++ mapPlan (fun _ => none) v (n + 1))) ∨
    (∃ s', Phys.mapLoop pgdir perm n s (v * PGSIZE) pa = .ok (s', false) ∧ Drawn K s₀ s' pgdir ∧
      ∀ bad rest, s₀.Spared bad (plan ++ mapPlan (fun _ => none) v (n + 1) ++ rest) ↔
      bad .ktable = false) := by
  have plans : mapPlan (table s.mem pgdir) v (n + 1) = mapPlan (fun _ => none) v (n + 1) :=
    mapPlan_congr v (n + 1) built.above
  have absent : ∀ u, v ≤ u → u < v + (n + 1) → present (entry s.mem pgdir u) = false := by
    intro u from_ _
    rw [built.entries u, if_neg (by omega), present_zero]
  rcases mapLoop_cases perm n s v pa built.drawn.own built.drawn.pool built.seated high
    inside absent with
    ⟨s', done, ranged, advanced, spared⟩ | ⟨s', done, drawn, spared⟩
  · refine .inl ⟨s', done, built.drawn.trans ranged.toDrawn, fun u => ?_, fun d far => ?_,
      fun d low => ?_, fun q mem => ?_, built.advanced.append (plans ▸ advanced),
      fun bad rest => ?_, ranged.seated⟩
    · by_cases range : v ≤ u ∧ u < v + (n + 1)
      · have := ranged.on (u - v) (by omega)
        rw [Nat.add_sub_cancel' range.1] at this
        rw [this, if_pos range.2, ← matches' (u - v) (by omega), Nat.add_sub_cancel' range.1]
      · rw [ranged.off u range, built.entries u]
        by_cases before : u < v
        · rw [if_pos before, if_pos (by omega)]
        · rw [if_neg before, if_neg (by omega)]
    · rw [ranged.tables d (by omega), built.above d (by omega)]
    · rw [ranged.tables d, built.low d low]
      rintro ⟨from_, _⟩
      have : v < UPAGES := by
        unfold NPTENTRIES UPAGES KERNBASE PGSIZE at *
        omega
      omega
    · rcases built.all q mem with mem | ⟨d, here⟩
      · exact ranged.all q mem
      · exact .inr ⟨d, ranged.known d q here⟩
    · rw [List.append_assoc, built.spared, ← plans]
      exact spared bad rest
  · refine .inr ⟨s', done, built.drawn.trans drawn, fun bad rest => ?_⟩
    rw [List.append_assoc, built.spared, ← plans]
    exact spared bad rest

theorem Built.gap {s₀ : Phys} {plan : List Use}
    (built : Built K s₀ s pgdir (UPAGES + PHYSTOP / PGSIZE) plan) :
    Built K s₀ s pgdir DEVPAGE plan := by
  refine ⟨built.drawn, fun u => ?_, fun d far => built.above d (Nat.le_trans (by decide) far),
    built.low, built.all, built.advanced, built.spared,
    fun inner => absurd (show DEVPAGE % NPTENTRIES = 0 by decide) inner⟩
  rw [built.entries u]
  by_cases before : u < UPAGES + PHYSTOP / PGSIZE
  · rw [if_pos before, if_pos (Nat.lt_trans before (by decide))]
  · rw [if_neg before]
    by_cases gap : u < DEVPAGE
    · have order : UPAGES + K.data / PGSIZE ≤ UPAGES + PHYSTOP / PGSIZE :=
        Nat.add_le_add_left (Nat.div_le_div_right (Nat.le_trans (Nat.le_of_lt K.after) K.room)) _
      have first : UPAGES + EXTMEM / PGSIZE ≤ UPAGES + PHYSTOP / PGSIZE := by decide
      have user : UPAGES ≤ UPAGES + PHYSTOP / PGSIZE := Nat.le_add_right _ _
      rw [if_pos gap]
      unfold kernelEntry
      rw [if_neg (by omega), if_neg (by omega), if_neg (by omega), if_neg before, if_pos gap]
    · rw [if_neg gap]

theorem mapPlan_inner (tab : Nat → Option Page) (v n : Nat)
    (inner : ∀ i < n, (v + i) % NPTENTRIES ≠ 0) : mapPlan tab v n = [] := by
  induction n generalizing v with
  | zero => rfl
  | succ n ih =>
    unfold mapPlan
    rw [if_neg fun both => inner 0 (Nat.succ_pos n) both.1]
    refine ih (v + 1) fun i less => ?_
    rw [show v + 1 + i = v + (i + 1) by omega]
    exact inner (i + 1) (Nat.succ_lt_succ less)

theorem mapPlan_tables (k m : Nat) :
    mapPlan (fun _ => none) (k * NPTENTRIES) (m * NPTENTRIES) = List.replicate m .ktable := by
  induction m generalizing k with
  | zero => rw [Nat.zero_mul]; rfl
  | succ m ih =>
    have one : mapPlan (fun _ => none) (k * NPTENTRIES) NPTENTRIES = [.ktable] := by
      have inner : mapPlan (fun _ => none) (k * NPTENTRIES + 1) 1023 = [] := by
        refine mapPlan_inner _ _ _ fun i less => ?_
        unfold NPTENTRIES
        omega
      rw [show NPTENTRIES = 1023 + 1 from rfl, mapPlan_succ,
        if_pos ⟨Nat.mul_mod_left k NPTENTRIES, rfl⟩]
      exact congrArg _ inner
    rw [Nat.succ_mul, Nat.add_comm, mapPlan_append, one, ← Nat.succ_mul, ih]
    rfl

/-! ### `setupkvm` -/

theorem mappages_range {v n : Nat} (inside : v + n < 2 ^ 20) (pa : Page) (perm : Flags) :
    s.mappages pgdir (v * PGSIZE)
      ((n + 1) * PGSIZE) pa perm = Phys.mapLoop pgdir perm n s (v * PGSIZE) pa := by
  have start : PGROUNDDOWN (v * PGSIZE) = v * PGSIZE := by
    unfold PGROUNDDOWN PGSIZE
    omega
  have last :
      PGROUNDDOWN ((v * PGSIZE + (n + 1) * PGSIZE + 2 ^ 32 - 1) % 2 ^ 32) = (v + n) * PGSIZE := by
    unfold PGROUNDDOWN PGSIZE
    omega
  have count : ((v + n) * PGSIZE + 2 ^ 32 - v * PGSIZE) % 2 ^ 32 / PGSIZE = n := by
    unfold PGSIZE
    omega
  unfold Phys.mappages
  simp only
  rw [start, last, count]

theorem Built.range {s₀ : Phys} {v n : Nat} {plan : List Use}
    (built : Built K s₀ s pgdir v plan) (k : KMap) (ks : List KMap) (high : UPAGES ≤ v)
    (inside : v + n < 2 ^ 20) (virt : k.virt = v * PGSIZE)
    (size : (k.physEnd + 2 ^ 32 - k.physStart) % 2 ^ 32 = (n + 1) * PGSIZE)
    (matches' : ∀ i < n + 1, kernelEntry K (v + i) =
      mkpte (BitVec.ofNat 20 (k.physStart / PGSIZE) + BitVec.ofNat 20 i) (k.perm ||| PTE_P)) :
    (∃ s', Phys.mapKernel pgdir (k :: ks) s = Phys.mapKernel pgdir ks s' ∧
      Built K s₀ s' pgdir (v + (n + 1)) (plan ++ mapPlan (fun _ => none) v (n + 1))) ∨
    (∃ s', Phys.mapKernel pgdir (k :: ks) s = .ok (s', false) ∧ Drawn K s₀ s' pgdir ∧
      ∀ bad rest, s₀.Spared bad (plan ++ mapPlan (fun _ => none) v (n + 1) ++ rest) ↔
      bad .ktable = false) := by
  have unfolded : Phys.mapKernel pgdir (k :: ks) s =
      (Phys.mapLoop pgdir k.perm n s (v * PGSIZE)
      (BitVec.ofNat 20 (k.physStart / PGSIZE)) >>= fun x =>
        if x.2 then Phys.mapKernel pgdir ks x.1 else .ok (x.1, false)) := by
    conv_lhs => unfold Phys.mapKernel
    rw [virt, size, mappages_range inside]
    rfl
  rw [unfolded]
  rcases built.step _ _ high inside matches' with ⟨s', done, built'⟩ | ⟨s', done, rest⟩
  · exact .inl ⟨s', by rw [done]; rfl, built'⟩
  · exact .inr ⟨s', by rw [done]; rfl, rest⟩

/-- The calls of `kalloc` for the kernel part of a directory. -/
def kernelPlan : List Use := List.replicate 64 .ktable

theorem kernelPlan_eq {a b c : Nat} (sum : a + b + c = PHYSTOP / PGSIZE) :
    mapPlan (fun _ => none) UPAGES a ++ mapPlan (fun _ => none) (UPAGES + a) b ++
      mapPlan (fun _ => none)
      (UPAGES + a + b) c ++ mapPlan (fun _ => none) DEVPAGE (8 * NPTENTRIES) = kernelPlan := by
  have devices : mapPlan (fun _ => none) DEVPAGE (8 * NPTENTRIES) = List.replicate 8 .ktable :=
    mapPlan_tables 1016 8
  have memory : mapPlan (fun _ => none) UPAGES (a + b + c) = List.replicate 56 .ktable := by
    rw [sum]
    exact mapPlan_tables 512 56
  rw [← mapPlan_append, Nat.add_assoc UPAGES a b, ← mapPlan_append, memory, devices]
  rfl

/-- **The loop of `setupkvm`**: the kernel part is complete, or a page table is refused. -/
theorem mapKernel_cases {s₀ : Phys} (built : Built K s₀ s pgdir UPAGES []) :
    (∃ s', Phys.mapKernel pgdir (kmap K) s = .ok (s', true) ∧
    Built K s₀ s' pgdir (2 ^ 20) kernelPlan) ∨
    (∃ s', Phys.mapKernel pgdir (kmap K) s = .ok (s', false) ∧ Drawn K s₀ s' pgdir ∧
      ∀ bad rest, s₀.Spared bad (kernelPlan ++ rest) ↔ bad .ktable = false) := by
  obtain ⟨dp, data⟩ : ∃ dp, K.data = dp * PGSIZE :=
    ⟨K.data / PGSIZE, (Nat.div_mul_cancel (Nat.dvd_of_mod_eq_zero K.aligned)).symm⟩
  have page : K.data / PGSIZE = dp := by
    rw [data]
    exact Nat.mul_div_cancel dp (by decide)
  have low : 0x100 < dp := by
    have := K.text
    unfold EXTMEM at this
    unfold PGSIZE at data
    omega
  have top : dp < 0xE000 := by
    have := Nat.lt_of_lt_of_le K.after K.room
    unfold PHYSTOP at this
    unfold PGSIZE at data
    omega
  obtain ⟨n₂, second⟩ : ∃ n₂, dp = 0x100 + (n₂ + 1) := ⟨dp - 0x101, by omega⟩
  obtain ⟨n₃, third⟩ : ∃ n₃, 0xE000 = dp + (n₃ + 1) := ⟨0xE000 - dp - 1, by omega⟩
  have sum : 255 + 1 + (n₂ + 1) + (n₃ + 1) = PHYSTOP / PGSIZE := by
    show _ = 0xE000
    omega
  have plans := kernelPlan_eq sum
  have entries : ∀ v, UPAGES ≤ v → v < UPAGES + 0xE000 → kernelEntry K v =
      mkpte (BitVec.ofNat 20 (v - UPAGES))
      ((if v < UPAGES + 0x100 then PTE_W else if v < UPAGES + dp then 0 else PTE_W) ||| PTE_P) := by
    intro v from_ below
    unfold kernelEntry
    rw [page, if_neg (Nat.not_lt.2 from_)]
    show (if v < UPAGES + 0x100 then _ else if v < UPAGES + dp then _ else if v < UPAGES +
      0xE000 then _ else _) = _
    split
    · rfl
    · split <;> rfl
  have frame : ∀ start i, BitVec.ofNat 20 start + BitVec.ofNat 20 i = BitVec.ofNat 20 (start + i) :=
    fun start i => (BitVec.ofNat_add start i).symm
  have first : ∀ i < 255 + 1, kernelEntry K (UPAGES + i) =
      mkpte (BitVec.ofNat 20 (0 / PGSIZE) + BitVec.ofNat 20 i) (PTE_W ||| PTE_P) := by
    intro i less
    rw [entries _ (Nat.le_add_right _ _) (by omega), if_pos (by omega), frame, Nat.zero_div,
      Nat.zero_add, Nat.add_sub_cancel_left]
  have text : ∀ i < n₂ + 1, kernelEntry K (UPAGES + (255 + 1) + i) =
      mkpte (BitVec.ofNat 20 ((KERNLINK - KERNBASE) / PGSIZE) + BitVec.ofNat 20 i)
      (0 ||| PTE_P) := by
    intro i less
    have start : (KERNLINK - KERNBASE) / PGSIZE = 0x100 := by decide
    rw [entries _ (by omega) (by omega), if_neg (by omega), if_pos (by omega), frame, start,
      show UPAGES + (255 + 1) + i - UPAGES = 0x100 + i by omega]
  have rest : ∀ i < n₃ + 1, kernelEntry K (UPAGES + (255 + 1) + (n₂ + 1) + i) =
      mkpte (BitVec.ofNat 20 (K.data / PGSIZE) + BitVec.ofNat 20 i) (PTE_W ||| PTE_P) := by
    intro i less
    rw [entries _ (by omega) (by omega), if_neg (by omega), if_neg (by omega), frame, page,
      show UPAGES + (255 + 1) + (n₂ + 1) + i - UPAGES = dp + i by omega]
  have devices : ∀ i < 8191 + 1, kernelEntry K (DEVPAGE + i) =
      mkpte (BitVec.ofNat 20 (DEVSPACE / PGSIZE) + BitVec.ofNat 20 i) (PTE_W ||| PTE_P) := by
    intro i less
    have start : DEVPAGE = 0xFE000 := by decide
    have user : UPAGES = 0x80000 := by decide
    rw [frame]
    unfold kernelEntry
    rw [page, if_neg (by omega), if_neg, if_neg (by omega), if_neg, if_neg (by omega),
      if_pos (by omega)]
    · rfl
    · show ¬ DEVPAGE + i < UPAGES + 0xE000
      omega
    · show ¬ DEVPAGE + i < UPAGES + 0x100
      omega
  have size₂ : (K.data + 2 ^ 32 - (KERNLINK - KERNBASE)) % 2 ^ 32 = (n₂ + 1) * PGSIZE := by
    rw [data, second]
    unfold KERNLINK KERNBASE EXTMEM PGSIZE
    omega
  have virt₃ : KERNBASE + K.data = (UPAGES + (255 + 1) + (n₂ + 1)) * PGSIZE := by
    rw [data, second]
    unfold UPAGES KERNBASE PGSIZE
    omega
  have size₃ : (PHYSTOP + 2 ^ 32 - K.data) % 2 ^ 32 = (n₃ + 1) * PGSIZE := by
    rw [data]
    unfold PHYSTOP PGSIZE
    omega
  have virt₂ : KERNLINK = (UPAGES + (255 + 1)) * PGSIZE := by decide
  have inside₂ : UPAGES + (255 + 1) + n₂ < 2 ^ 20 := by
    unfold UPAGES KERNBASE PGSIZE
    omega
  have high₃ : UPAGES ≤ UPAGES + (255 + 1) + (n₂ + 1) :=
    Nat.le_trans (Nat.le_add_right _ _) (Nat.le_add_right _ _)
  have inside₃ : UPAGES + (255 + 1) + (n₂ + 1) + n₃ < 2 ^ 20 := by
    unfold UPAGES KERNBASE PGSIZE
    omega
  have whole : UPAGES + (255 + 1) + (n₂ + 1) + (n₃ + 1) = UPAGES + PHYSTOP / PGSIZE := by
    rw [← sum]
    omega
  -- a call that fails in one range fails the plan of all four
  have failed : ∀ {plan rest : List Use}, plan ++ rest = kernelPlan →
      (∀ bad more, s₀.Spared bad (plan ++ more) ↔ bad .ktable = false) →
      ∀ bad more, s₀.Spared bad (kernelPlan ++ more) ↔ bad .ktable = false := by
    intro plan rest is spared bad more
    rw [← is, List.append_assoc]
    exact spared bad (rest ++ more)
  unfold kmap
  rcases built.range (n := 255) ⟨KERNBASE, 0, EXTMEM, PTE_W⟩ _ (Nat.le_refl _)
    (by decide) rfl (by decide) first with
    ⟨s₁, done₁, built₁⟩ | ⟨s₁, done, drawn, spared⟩
  · rw [done₁]
    rcases built₁.range ⟨KERNLINK, KERNLINK - KERNBASE, K.data, 0⟩ _ (Nat.le_add_right _ _) inside₂
      virt₂ size₂ text with
      ⟨s₂, done₂, built₂⟩ | ⟨s₂, done, drawn, spared⟩
    · rw [done₂]
      rcases built₂.range ⟨KERNBASE + K.data, K.data, PHYSTOP, PTE_W⟩ _ high₃ inside₃ virt₃
        size₃ rest with
        ⟨s₃, done₃, built₃⟩ | ⟨s₃, done, drawn, spared⟩
      · rw [done₃]
        rw [whole] at built₃
        rcases built₃.gap.range (n := 8191) ⟨DEVSPACE, DEVSPACE, 0, PTE_W⟩ [] (by decide)
          (by decide) (by decide) (by decide)
          devices with ⟨s₄, done₄, built₄⟩ | ⟨s₄, done, drawn, spared⟩
        · refine .inl ⟨s₄, done₄, ?_⟩
          rw [← plans]
          exact built₄
        · exact .inr ⟨s₄, done, drawn,
            failed (show _ ++ [] = _ from (List.append_nil _).trans plans) spared⟩
      · exact .inr ⟨s₃, done, drawn, failed plans spared⟩
    · exact .inr ⟨s₂, done, drawn, failed (by rw [← List.append_assoc]; exact plans) spared⟩
  · refine .inr ⟨s₁, done, drawn,
      failed (by rw [← List.append_assoc, ← List.append_assoc]; exact plans) spared⟩

/-- **A new directory with its kernel part**, made of free pages. -/
structure KernelDir (K : Layout) (s s' : Phys) (d : Page) : Prop where
  listed : d ∈ s.free
  entries : entry s'.mem d = kernelEntry K
  low : ∀ e, e * NPTENTRIES < UPAGES → table s'.mem d e = none
  kept : ∀ q, q ∉ s.free → s'.mem q = s.mem q
  fewer : ∀ q ∈ s'.free, q ∈ s.free
  all : ∀ q ∈ s.free, q ∈ s'.free ∨ ∃ x, held s'.mem d x = some q
  fresh : ∀ x q, held s'.mem d x = some q → q ∈ s.free
  deny : s'.deny = s.deny
  own : Own K s' d
  pool : Pool K s'

/-- Pages were taken off the free list and lost, `d` among them; the memory of others is as it
was. -/
structure Leaked (K : Layout) (s s' : Phys) (d : Page) : Prop where
  listed : d ∈ s.free
  lost : d ∉ s'.free
  kept : ∀ q, q ∉ s.free → s'.mem q = s.mem q
  fewer : ∀ q ∈ s'.free, q ∈ s.free
  deny : s'.deny = s.deny
  pool : Pool K s'

theorem kernelEntry_low {v : Nat} (low : v < UPAGES) : kernelEntry K v = 0 := if_pos low

theorem kernelEntry_beyond {v : Nat} (beyond : 2 ^ 20 ≤ v) : kernelEntry K v = 0 := by
  have data : K.data / PGSIZE ≤ PHYSTOP / PGSIZE :=
    Nat.div_le_div_right (Nat.le_trans (Nat.le_of_lt K.after) K.room)
  have top : UPAGES + PHYSTOP / PGSIZE ≤ 2 ^ 20 := by decide
  have first : UPAGES + EXTMEM / PGSIZE ≤ 2 ^ 20 := by decide
  have user : UPAGES ≤ 2 ^ 20 := by decide
  have devices : DEVPAGE ≤ 2 ^ 20 := by decide
  unfold kernelEntry
  rw [if_neg (by omega), if_neg (by omega), if_neg (by omega), if_neg (by omega), if_neg (by omega),
    if_neg (by omega)]

/-- **The three ways of `setupkvm`**: no page for the directory, a complete directory, or a refused
page table, with which everything allocated is lost. -/
theorem setupkvm_cases (pool : Pool K s) :
    (s.refuses = true ∧ s.setupkvm K = .ok (s.refused, none)) ∨
    (s.refuses = false ∧ ∃ s' d, s.setupkvm K = .ok (s', some d) ∧ KernelDir K s s' d ∧
    s.Advanced s' (.page :: kernelPlan) ∧
      ∀ bad plan, s.Spared bad (.page :: (kernelPlan ++ plan)) ↔ s'.Spared bad plan) ∨
    (s.refuses = false ∧ ∃ s' d, s.setupkvm K = .ok (s', none) ∧ Leaked K s s' d ∧
      ∀ bad plan, s.Spared bad (.page :: (kernelPlan ++ plan)) ↔ bad .ktable = false) := by
  unfold Phys.setupkvm
  cases refuses : s.refuses with
  | true =>
    rw [s.kalloc_refused refuses]
    exact .inl ⟨rfl, rfl⟩
  | false =>
    obtain ⟨d, listed, kalloc⟩ := s.kalloc_taken refuses
    obtain ⟨first, others, valid⟩ := pool.head listed
    rw [kalloc]
    simp only
    rw [if_neg (by decide)]
    let s₁ := s.taken.fill d fun _ => 0
    have fewer : ∀ q ∈ s₁.free, q ∈ s.free := fun q mem => listed ▸ List.mem_cons_of_mem d mem
    have blank : s₁.mem d = fun _ => 0 := update_self d _ s.mem
    have tables : table s₁.mem d = fun _ => none := by
      funext e
      unfold table
      rw [blank]
      exact if_neg fun both => Bool.false_ne_true (present_zero.symm.trans both.2)
    have entries : entry s₁.mem d = fun _ => 0 := by
      funext v
      exact entry_of_missing (congrFun tables _)
    have own : Own K s₁ d := by
      unfold Own held
      rw [tables, entries]
      exact tenure_empty others valid
    have pool₁ : Pool K s₁ :=
      ⟨(List.nodup_cons.1 (listed ▸ pool.nodup)).2, fun q mem => pool.valid q (fewer q mem)⟩
    have built : Built K s₁ s₁ d UPAGES [] := by
      refine ⟨.refl own pool₁, fun u => ?_,
        fun e _ => by rw [tables], fun e _ => by rw [tables], fun q mem => .inl mem,
        ⟨rfl, rfl⟩, fun bad rest => Iff.rfl,
        fun inner => absurd (show UPAGES % NPTENTRIES = 0 by decide) inner⟩
      rw [entries]
      split
      · next low => rw [kernelEntry_low low]
      · rfl
    have keep : ∀ {s'}, Drawn K s₁ s' d → ∀ q, q ∉ s.free → s'.mem q = s.mem q := by
      intro s' drawn q used
      have notDir : q ≠ d := fun same => used (same ▸ first)
      rw [drawn.kept q (fun mem => used (fewer q mem)) notDir
        fun e is => by rw [tables] at is; cases is]
      exact update_of_ne notDir _ _
    rcases mapKernel_cases built with ⟨s', done, built'⟩ | ⟨s', done, drawn, spared⟩
    · have taken : s.Advanced s₁ [.page] := ⟨rfl, by rw [listed]; rfl⟩
      refine .inr (.inl ⟨trivial, s', d, ?_, ?_, taken.append built'.advanced, fun bad plan => ?_⟩)
      · rw [show Phys.mapKernel d (kmap K) (s.taken.fill d fun _ => 0) = .ok (s', true) from done]
        rfl
      · have drawn := built'.drawn
        have full : entry s'.mem d = kernelEntry K := by
          funext u
          rw [built'.entries u]
          by_cases inside : u < 2 ^ 20
          · exact if_pos inside
          · rw [if_neg inside, kernelEntry_beyond (Nat.le_of_not_lt inside)]
        refine ⟨first, full, built'.low, keep drawn, fun q mem => fewer q (drawn.fewer q mem),
          fun q mem => ?_, fun x q here => ?_, drawn.deny, drawn.own, drawn.pool⟩
        · rw [listed] at mem
          rcases List.mem_cons.1 mem with rfl | mem
          · exact .inr ⟨.dir, rfl⟩
          · rcases built'.all q mem with mem | ⟨e, here⟩
            · exact .inl mem
            · exact .inr ⟨.table e, here⟩
        · cases x with
          | dir =>
            cases here
            exact first
          | table e =>
            rcases drawn.fresh e q here with known | mem
            · rw [tables] at known
              cases known
            · exact fewer q mem
          | frame v =>
            obtain ⟨low, is, _⟩ := held_frame_iff.1 here
            rw [full, kernelEntry_low low, present_zero] at is
            cases is
      · rw [spared_taken refuses]
        exact built'.spared bad plan
    · refine .inr
        (.inr ⟨trivial, s', d, ?_,
        ⟨first, drawn.own.dir_used, keep drawn, fun q mem => fewer q (drawn.fewer q mem),
        drawn.deny, drawn.pool⟩, fun bad plan => ?_⟩)
      · rw [show Phys.mapKernel d (kmap K) (s.taken.fill d fun _ => 0) = .ok (s', false) from done]
        rfl
      · rw [spared_taken refuses]
        exact spared bad plan

end Xv6.Vm
