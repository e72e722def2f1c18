/-
**`allocuvm`: all pages or none.**

The loop of `allocuvm` puts in one zeroed page after the other. When a page cannot be had it gives
back what it put in; but it does not notice when a page table cannot be had: the page it had
allocated is then lost, and the address stays unmapped.
-/

import Xv6.Vm.Fill

namespace Xv6.Vm

open Lib
open Function (update update_self update_of_ne)

variable {K : Layout} {s s' s'' : Phys} {pgdir : Page}

/-- What a page of the address space is mapped to. -/
def mapping (mem : Page → Nat → Word) (pgdir : Page) (v : Nat) : Option Word :=
  if present (entry mem pgdir v) = true then some (entry mem pgdir v) else none

theorem mapping_congr {m m' : Page → Nat → Word} {v : Nat}
    (same : entry m' pgdir v = entry m pgdir v) : mapping m' pgdir v = mapping m pgdir v := by
  unfold mapping
  rw [same]

theorem mapping_none {m : Page → Nat → Word} {v : Nat}
    (absent : present (entry m pgdir v) = false) : mapping m pgdir v = none :=
  if_neg (Bool.eq_false_iff.1 absent)

/-- The user pages mapped are exactly those below `PGROUNDUP(sz)`. -/
def MapsBelow (s : Phys) (pgdir : Page) (sz : Nat) : Prop :=
  ∀ v < UPAGES, present (entry s.mem pgdir v) = true ↔ v * PGSIZE < PGROUNDUP sz

theorem MapsBelow.iff {sz v : Nat} (maps : MapsBelow s pgdir sz) (small : sz ≤ KERNBASE)
    (low : v < UPAGES) : present (entry s.mem pgdir v) = true ↔ v < pages sz := by
  rw [maps v low, PGROUNDUP_eq small, Nat.mul_lt_mul_right (by decide)]

theorem pages_le {sz : Nat} (small : sz ≤ KERNBASE) : pages sz ≤ UPAGES := by
  unfold pages UPAGES
  unfold KERNBASE PGSIZE at *
  omega

theorem pages_mono {a b : Nat} (le : a ≤ b) : pages a ≤ pages b := by
  unfold pages PGSIZE
  omega

theorem MapsBelow.absent {sz v : Nat} (maps : MapsBelow s pgdir sz) (small : sz ≤ KERNBASE)
    (low : v < UPAGES) (above : pages sz ≤ v) : present (entry s.mem pgdir v) = false :=
  Bool.eq_false_iff.2 fun is => Nat.not_lt.2 above ((maps.iff small low).1 is)

theorem MapsBelow.seated {sz : Nat} (maps : MapsBelow s pgdir sz) (small : sz ≤ KERNBASE) :
    Seated s pgdir (pages sz) := by
  intro inner missing
  have low : pages sz - 1 < UPAGES := by
    have := pages_le small
    unfold NPTENTRIES at inner
    omega
  have last : present (entry s.mem pgdir (pages sz - 1)) = true := by
    rw [maps.iff small low]
    unfold NPTENTRIES at inner
    omega
  obtain ⟨t, here⟩ := exists_table last
  have same : (pages sz - 1) / NPTENTRIES = pages sz / NPTENTRIES := by
    unfold NPTENTRIES at *
    omega
  rw [same, missing] at here
  cases here

/-! ### The loop -/

/-- The flags of a new page. -/
def newFlags : Nat → Flags := fun _ => PTE_W ||| PTE_U

/-- The contents of a new page. -/
def zeros : Nat → Nat → Word := fun _ _ => 0

theorem mappages_one {v : Nat} (low : v < UPAGES) (pa : Page) (perm : Flags) :
    s.mappages pgdir (v * PGSIZE) PGSIZE pa perm = mapOne s pgdir v pa perm := by
  have inside : v < 524288 := low
  have start : PGROUNDDOWN (v * PGSIZE) = v * PGSIZE := by
    unfold PGROUNDDOWN PGSIZE
    omega
  have last : PGROUNDDOWN ((v * PGSIZE + PGSIZE + 2 ^ 32 - 1) % 2 ^ 32) = v * PGSIZE := by
    unfold PGROUNDDOWN PGSIZE
    omega
  have none : (v * PGSIZE + 2 ^ 32 - v * PGSIZE) % 2 ^ 32 / PGSIZE = 0 := by
    unfold PGSIZE
    omega
  unfold Phys.mappages
  simp only
  rw [start, last, none]

/-- What the loop does once the page for round `m` is refused. -/
def giveUp (K : Layout) (s : Phys) (pgdir : Page) (oldsz newsz : Nat) :
    Except Fault (Phys × Nat) := do
  let (s, _) ← s.refused.deallocuvm K pgdir newsz oldsz
  return (s, 0)

/-- A page table of the user part. -/
def isUtable : Use → Bool
  | .utable => true
  | _ => false

/-- **The three ways of the loop**: every page is put in, or a page is refused after `m` of them, or
a page table is. Only in the last is the plan not spared. -/
theorem allocLoop_cases (oldsz newsz n : Nat) (s : Phys) (v : Nat) (own : Own K s pgdir)
    (pool : Pool K s) (seated : Seated s pgdir v) (low : v + n ≤ UPAGES)
    (absent : ∀ u, v ≤ u → u < v + n → present (entry s.mem pgdir u) = false) :
    (s.Spared isUtable (growPlan (table s.mem pgdir) v n) ∧
      ((∃ s', Phys.allocLoop K pgdir oldsz newsz n s (v * PGSIZE) = .ok (s', newsz) ∧
          Filled K s s' pgdir v n newFlags zeros) ∨
        ∃ m s', m < n ∧ Filled K s s' pgdir v m newFlags zeros ∧
          Phys.allocLoop K pgdir oldsz newsz n s (v * PGSIZE) = giveUp K s' pgdir oldsz newsz)) ∨
    (¬ s.Spared isUtable (growPlan (table s.mem pgdir) v n) ∧
      ∃ m s' p, m < n ∧ Filled K s s' pgdir v m newFlags zeros ∧ s'.free = p :: s'.taken.free ∧
        Phys.allocLoop K pgdir oldsz newsz n s (v * PGSIZE) =
          Phys.allocLoop K pgdir oldsz newsz (n - m - 1)
          (s'.taken.fill p fun _ => 0).refused ((v + m + 1) * PGSIZE)) := by
  induction n generalizing s v with
  | zero => exact .inl ⟨rfl, .inl ⟨s, rfl, .nil own pool v _ _⟩⟩
  | succ n ih =>
    have here : v < UPAGES := by omega
    have next : v * PGSIZE + PGSIZE = (v + 1) * PGSIZE := (Nat.succ_mul v PGSIZE).symm
    cases refuses : s.refuses with
    | true =>
      refine .inl ⟨?_, .inr ⟨0, s, Nat.succ_pos n, .nil own pool v _ _, ?_⟩⟩
      · unfold growPlan
        split <;> exact (spared_refused refuses).2 rfl
      · unfold Phys.allocLoop
        rw [s.kalloc_refused refuses]
        rfl
    | false =>
      obtain ⟨p, listed, kalloc⟩ := s.kalloc_taken refuses
      have round : Phys.allocLoop K pgdir oldsz newsz (n + 1) s (v * PGSIZE) =
          (mapOne (s.taken.fill p fun _ => 0) pgdir v p (newFlags v) >>= fun x =>
            Phys.allocLoop K pgdir oldsz newsz n x.1 ((v + 1) * PGSIZE)) := by
        conv_lhs => unfold Phys.allocLoop
        rw [kalloc]
        simp only
        rw [mappages_one here, next]
        rfl
      rcases own.place pool here (absent v (Nat.le_refl v) (by omega)) refuses listed (newFlags v)
        (zeros v) with
        ⟨s₁, t, done, placed⟩ | ⟨missing, fails, done⟩
      · have later : ∀ u, v + 1 ≤ u → u < v + 1 + n → present (entry s₁.mem pgdir u) = false := by
          intro u from_ below
          rw [placed.entries, update_of_ne (by omega)]
          exact absent u (by omega) (by omega)
        have spared := placed.spared isUtable [] (n := n) seated
        rw [List.append_nil, List.append_nil] at spared
        rw [spared, round]
        have step : (mapOne (s.taken.fill p fun _ => 0) pgdir v p (newFlags v) >>= fun x =>
            Phys.allocLoop K pgdir oldsz newsz n x.1 ((v + 1) * PGSIZE)) =
            Phys.allocLoop K pgdir oldsz newsz n s₁ ((v + 1) * PGSIZE) := by
          rw [show mapOne (s.taken.fill p fun _ => 0) pgdir v p (newFlags v) =
            .ok (s₁, true) from done]
          rfl
        rw [step]
        rcases ih s₁ (v + 1) placed.own placed.pool placed.seated (by omega) later with
          ⟨yes, ⟨s', is, filled⟩ | ⟨m, s', less, filled, is⟩⟩ | ⟨no, m, s', q, less,
            filled, free, is⟩
        · exact .inl ⟨yes, .inl ⟨s', is, filled.cons here placed⟩⟩
        · exact .inl ⟨yes, .inr ⟨m + 1, s', by omega, filled.cons here placed, is⟩⟩
        · refine .inr ⟨no, m + 1, s', q, by omega, filled.cons here placed, free, is.trans ?_⟩
          rw [show n + 1 - (m + 1) - 1 = n - m -
            1 by omega, show v + (m + 1) + 1 = v + 1 + m + 1 by omega]
      · refine .inr ⟨?_, 0, s, p, Nat.succ_pos n, .nil own pool v _ _, listed, ?_⟩
        · unfold growPlan
          rw [if_pos ⟨seated.missing missing, missing⟩, spared_taken refuses, spared_refused fails]
          rintro ⟨⟩
        · rw [round, show mapOne (s.taken.fill p fun _ => 0) pgdir v p (newFlags v) = _ from done]
          rfl

/-! ### What was put in is given back -/

theorem Own.refused (own : Own K s pgdir) : Own K s.refused pgdir := own

theorem Pool.refused (pool : Pool K s) : Pool K s.refused := ⟨pool.nodup, pool.valid⟩

theorem held_frame_iff {m : Page → Nat → Word} {v : Nat} {p : Page} :
    held m pgdir (.frame v) = some p ↔ v < UPAGES ∧ present (entry m pgdir v) = true ∧
      PTE_ADDR (entry m pgdir v) = p := by
  show (if v < UPAGES ∧ present (entry m pgdir v) = true then some (PTE_ADDR (entry m pgdir v))
    else none) = some p ↔ _
  split
  · next both => rw [Option.some.injEq, ← and_assoc, and_iff_right both]
  · next not => exact iff_of_false nofun fun all => not ⟨all.1, all.2.1⟩

/-- Every free page is free again, or serves as a page table. -/
def Returned (s s' : Phys) (pgdir : Page) : Prop :=
  ∀ p ∈ s.free, p ∈ s'.free ∨ ∃ d, table s'.mem pgdir d = some p

/-- `allocuvm` that gives up returns what it had put in. -/
theorem giveUp_spec {oldsz newsz m : Nat} {flags : Nat → Flags} {words : Nat → Nat → Word}
    (own : Own K s pgdir) (grows : oldsz < newsz) (small : newsz ≤ KERNBASE)
    (less : pages oldsz + m ≤ pages newsz)
    (absent : ∀ u, pages oldsz ≤ u → u < pages newsz → present (entry s.mem pgdir u) = false)
    (filled : Filled K s s' pgdir (pages oldsz) m flags words) :
    ∃ s'', giveUp K s' pgdir oldsz newsz = .ok (s'', 0) ∧
      (∀ v, mapping s''.mem pgdir v = mapping s.mem pgdir v) ∧ Returned s s'' pgdir ∧
      table s''.mem pgdir = table s'.mem pgdir ∧ Own K s'' pgdir ∧ Pool K s'' ∧
      (∀ q, q ∉ s.free → q ≠ pgdir → (∀ d, table s.mem pgdir d ≠ some q) →
      s''.mem q = s.mem q) := by
  have high := pages_le small
  obtain ⟨s'', done, cleared⟩ := deallocuvm_spec filled.own.refused filled.pool.refused small grows
  have gone :
      ∀ u, (pages oldsz ≤ u ∧ u < pages newsz ∧ present (entry s'.refused.mem pgdir u) = true ∧
        ¬ Skipped s'.refused pgdir (pages oldsz) u) ↔ pages oldsz ≤ u ∧ u < pages oldsz + m := by
    intro u
    constructor
    · rintro ⟨from_, below, is, _⟩
      refine ⟨from_, Nat.lt_of_not_le fun above => ?_⟩
      have off : entry s'.refused.mem pgdir u = entry s.mem pgdir u := filled.off u (by omega)
      rw [off, absent u from_ below] at is
      cases is
    · rintro ⟨from_, below⟩
      have on : ∀ u, pages oldsz ≤ u → u < pages oldsz + m →
        present (entry s'.refused.mem pgdir u) = true := by
        intro u from_ below
        obtain ⟨p, _, is, _⟩ := filled.on u from_ below
        rw [show entry s'.refused.mem pgdir u = _ from is, present_mkpte]
      refine ⟨from_, by omega, on u from_ below, ?_⟩
      obtain ⟨t, here⟩ := exists_table (on (pages oldsz) (Nat.le_refl _) (by omega))
      exact (not_skipped_of_table here).1
  have cleared := cleared.congr fun u => (gone u).symm
  refine ⟨s'', ?_, fun v => ?_, fun p mem => ?_, cleared.tables, cleared.own, cleared.pool,
    fun q used notDir notTable => ?_⟩
  · unfold giveUp
    rw [done]
    rfl
  · by_cases range : pages oldsz ≤ v ∧ v < pages oldsz + m
    · rw [mapping_none (by rw [cleared.off v range, present_zero]),
        mapping_none (absent v range.1 (by omega))]
    · refine mapping_congr ((cleared.on v range).trans (filled.off v ?_))
      omega
  · obtain ⟨freed, _, among, free⟩ := cleared.freed
    rcases filled.all p mem with listed | ⟨x, is⟩
    · left
      rw [free]
      exact List.mem_append_right _ listed
    · cases x with
      | dir =>
        cases is
        exact absurd mem own.dir_used
      | table d => exact .inr ⟨d, by rw [cleared.tables]; exact is⟩
      | frame v =>
        obtain ⟨low, pres, frame⟩ := held_frame_iff.1 is
        have range : pages oldsz ≤ v ∧ v < pages oldsz + m := by
          by_contra outside
          rw [filled.off v outside] at pres frame
          exact own.used (held_frame_iff.2 ⟨low, pres, frame⟩) mem
        left
        rw [free]
        refine List.mem_append_left _
          (List.mem_reverse.2 (List.mem_map.2 ⟨v, (among v).2 range, frame⟩))
  · refine (cleared.kept q (fun u range same => ?_) fun d is => ?_).trans
      (filled.kept q used notDir notTable)
    · obtain ⟨p, mem, is, _⟩ := filled.on u range.1 range.2
      rw [show entry s'.refused.mem pgdir u = _ from is, PTE_ADDR_mkpte] at same
      exact used (same ▸ mem)
    · rcases filled.fresh d q is with known | ⟨mem, _⟩
      · exact notTable d known
      · exact used mem

/-! ### A page that is lost -/

/-- Page `p` is neither free nor the directory's, and page `u` is not mapped. -/
structure Stray (s : Phys) (pgdir p : Page) (u : Nat) : Prop where
  unlisted : p ∉ s.free
  unheld : ∀ x, held s.mem pgdir x ≠ some p
  absent : present (entry s.mem pgdir u) = false

variable {p : Page} {u : Nat}

theorem Stray.fresh {q : Page} (stray : Stray s pgdir p u) (own : Own K s pgdir) (pool : Pool K s)
    (listed : s.free = q :: s.taken.free) (words : Nat → Word) :
    Stray (s.taken.fill q words).refused pgdir p u := by
  obtain ⟨_, _, tables, entries, _⟩ := own.fresh pool listed words
  refine ⟨fun mem => stray.unlisted (listed ▸ List.mem_cons_of_mem q mem), fun x => ?_, ?_⟩
  · show held (s.taken.fill q words).mem pgdir x ≠ some p
    unfold held
    rw [tables, entries]
    exact stray.unheld x
  · show present (entry (s.taken.fill q words).mem pgdir u) = false
    rw [entries]
    exact stray.absent

theorem Stray.placed {v : Nat} {q t : Page} {flags : Flags} {words : Nat → Word}
    (stray : Stray s pgdir p u) (placed : Placed K s s' pgdir v q flags words t) (other : u ≠ v) :
    Stray s' pgdir p u := by
  refine ⟨fun mem => stray.unlisted (placed.fewer p mem), fun x here => ?_, ?_⟩
  · cases x with
    | dir => exact stray.unheld .dir here
    | table d =>
      rcases placed.fresh here with known | ⟨mem, _⟩
      · exact stray.unheld (.table d) known
      · exact stray.unlisted mem
    | frame w =>
      obtain ⟨low, is, frame⟩ := held_frame_iff.1 here
      rw [placed.entries] at is frame
      by_cases same : w = v
      · subst same
        rw [update_self, PTE_ADDR_mkpte] at frame
        exact stray.unlisted (frame ▸ placed.mem_free)
      · rw [update_of_ne same] at is frame
        exact stray.unheld (.frame w) (held_frame_iff.2 ⟨low, is, frame⟩)
  · rw [placed.entries, update_of_ne other]
    exact stray.absent

theorem Stray.cleared {gone : Nat → Prop} (stray : Stray s pgdir p u)
    (cleared : Cleared K s s' pgdir gone)
    (mapped : ∀ w, gone w → w < UPAGES ∧ present (entry s.mem pgdir w) = true) :
    Stray s' pgdir p u := by
  refine ⟨fun mem => ?_, fun x here => ?_, ?_⟩
  · obtain ⟨freed, _, among, free⟩ := cleared.freed
    rw [free] at mem
    rcases List.mem_append.1 mem with mem | mem
    · obtain ⟨w, listed, frame⟩ := List.mem_map.1 (List.mem_reverse.1 mem)
      obtain ⟨low, is⟩ := mapped w ((among w).1 listed)
      exact stray.unheld (.frame w) (held_frame_iff.2 ⟨low, is, frame⟩)
    · exact stray.unlisted mem
  · cases x with
    | dir => exact stray.unheld .dir here
    | table d =>
      have there : table s'.mem pgdir d = some p := here
      rw [cleared.tables] at there
      exact stray.unheld (.table d) there
    | frame w =>
      obtain ⟨low, is, frame⟩ := held_frame_iff.1 here
      by_cases off : gone w
      · rw [cleared.off w off, present_zero] at is
        cases is
      · rw [cleared.on w off] at is frame
        exact stray.unheld (.frame w) (held_frame_iff.2 ⟨low, is, frame⟩)
  · by_cases off : gone u
    · rw [cleared.off u off, present_zero]
    · rw [cleared.on u off]
      exact stray.absent

/-- A page that is neither free nor mapped stays so. -/
theorem allocLoop_stray {newsz : Nat} (oldsz : Nat) (small : newsz ≤ KERNBASE) (n : Nat)
    (s : Phys) (v : Nat) (own : Own K s pgdir) (pool : Pool K s) (low : v + n ≤ UPAGES)
    (absent : ∀ w, v ≤ w → w < v + n → present (entry s.mem pgdir w) = false)
    (stray : Stray s pgdir p u) (before : u < v) :
    ∃ s' r, Phys.allocLoop K pgdir oldsz newsz n s (v * PGSIZE) = .ok (s', r) ∧
    Stray s' pgdir p u := by
  induction n generalizing s v with
  | zero => exact ⟨s, newsz, rfl, stray⟩
  | succ n ih =>
    have here : v < UPAGES := by omega
    have next : v * PGSIZE + PGSIZE = (v + 1) * PGSIZE := (Nat.succ_mul v PGSIZE).symm
    unfold Phys.allocLoop
    cases refuses : s.refuses with
    | true =>
      rw [s.kalloc_refused refuses]
      simp only
      have stray : Stray s.refused pgdir p u := ⟨stray.unlisted, stray.unheld, stray.absent⟩
      by_cases grows : oldsz < newsz
      · obtain ⟨s', done, cleared⟩ := deallocuvm_spec own.refused pool.refused small grows
        rw [done]
        refine ⟨s', 0, rfl, stray.cleared cleared fun w gone => ⟨?_, gone.2.2.1⟩⟩
        exact Nat.lt_of_lt_of_le gone.2.1 (pages_le small)
      · unfold Phys.deallocuvm
        rw [if_pos (by omega)]
        exact ⟨s.refused, 0, rfl, stray⟩
    | false =>
      obtain ⟨q, listed, kalloc⟩ := s.kalloc_taken refuses
      rw [kalloc]
      simp only
      rw [mappages_one here, next]
      rcases own.place pool here (absent v (Nat.le_refl v) (by omega)) refuses listed
        (PTE_W ||| PTE_U) (fun _ => 0) with
        ⟨s₁, t, done, placed⟩ | ⟨_, _, done⟩
      · rw [done]
        refine ih s₁ (v + 1) placed.own placed.pool (by omega) (fun w from_ below => ?_)
          (stray.placed placed (by omega)) (by omega)
        rw [placed.entries, update_of_ne (by omega)]
        exact absent w (by omega) (by omega)
      · obtain ⟨own₁, pool₁, _, entries, _⟩ := own.fresh pool listed fun _ => 0
        rw [done]
        refine ih _ (v + 1) own₁.refused pool₁.refused (by omega) (fun w from_ below => ?_)
          (stray.fresh own pool listed _) (by omega)
        show present (entry (s.taken.fill q fun _ => 0).mem pgdir w) = false
        rw [entries]
        exact absent w (by omega) (by omega)

/-! ### `allocuvm` -/

/-- **All pages of the new size are there**, the new ones zeroed, writeable, the user's, and each on
a physical page of its own that was free. -/
structure Grown (s s' : Phys) (pgdir : Page) (oldsz newsz : Nat) : Prop where
  below : MapsBelow s' pgdir newsz
  old : ∀ v, ¬ InRange oldsz newsz v → mapping s'.mem pgdir v = mapping s.mem pgdir v
  new : ∀ v, InRange oldsz newsz v → ∃ p ∈ s.free, p ∉ s'.free ∧
    entry s'.mem pgdir v = mkpte p (PTE_W ||| PTE_U ||| PTE_P) ∧ ∀ i, s'.mem p i = 0
  distinct : ∀ u v, InRange oldsz newsz u → InRange oldsz newsz v →
    PTE_ADDR (entry s'.mem pgdir u) = PTE_ADDR (entry s'.mem pgdir v) → u = v

/-- The address space grew to `newsz`, or it is mapped as before and every data page allocated is
free again. -/
def AllOrNothing (s s' : Phys) (pgdir : Page) (oldsz newsz r : Nat) : Prop :=
  (r = newsz ∧ Grown s s' pgdir oldsz newsz) ∨
    (r = 0 ∧ (∀ v < UPAGES, mapping s'.mem pgdir v = mapping s.mem pgdir v) ∧ Returned s s' pgdir)

/-- The calls of `kalloc` that `allocuvm` makes. -/
def allocPlan (s : Phys) (pgdir : Page) (oldsz newsz : Nat) : List Use :=
  growPlan (table s.mem pgdir) (pages oldsz) (pages newsz - pages oldsz)

theorem Filled.grown {oldsz newsz : Nat} (maps : MapsBelow s pgdir oldsz) (le : oldsz ≤ newsz)
    (small : newsz ≤ KERNBASE)
    (filled : Filled K s s' pgdir (pages oldsz) (pages newsz - pages oldsz) newFlags zeros) :
    Grown s s' pgdir oldsz newsz := by
  have more := pages_mono le
  have high := pages_le small
  have small' : oldsz ≤ KERNBASE := Nat.le_trans le small
  have range : ∀ v, InRange oldsz newsz v ↔
      pages oldsz ≤ v ∧ v < pages oldsz + (pages newsz - pages oldsz) := by
    intro v
    rw [inRange_iff small']
    omega
  have frame :
      ∀ v, InRange oldsz newsz v →
      held s'.mem pgdir (.frame v) = some (PTE_ADDR (entry s'.mem pgdir v)) := by
    intro v inside
    obtain ⟨from_, below⟩ := (range v).1 inside
    obtain ⟨p, _, is, _⟩ := filled.on v from_ below
    exact held_frame_iff.2 ⟨by omega, by rw [is, present_mkpte], rfl⟩
  refine ⟨fun v low => ?_, fun v outside => ?_, fun v inside => ?_, fun u v first second same => ?_⟩
  · rw [PGROUNDUP_eq small, Nat.mul_lt_mul_right (by decide)]
    by_cases inside : InRange oldsz newsz v
    · obtain ⟨from_, below⟩ := (range v).1 inside
      obtain ⟨p, _, is, _⟩ := filled.on v from_ below
      exact iff_of_true (by rw [is, present_mkpte]) (by omega)
    · rw [filled.off v fun both => inside ((range v).2 both), maps.iff small' low]
      rw [range] at inside
      omega
  · exact mapping_congr (filled.off v fun both => outside ((range v).2 both))
  · obtain ⟨from_, below⟩ := (range v).1 inside
    obtain ⟨p, mem, is, zero⟩ := filled.on v from_ below
    refine ⟨p, mem, ?_, is, fun i => congrFun zero i⟩
    have holds := frame v inside
    rw [is, PTE_ADDR_mkpte] at holds
    exact filled.own.used holds
  · have holds := frame v second
    rw [← same] at holds
    exact Place.frame.inj (filled.own.inj (frame u first) holds)

/-- **`allocuvm` is all or nothing exactly when the first call of `kalloc` that is refused, if any,
does not ask for a page table.** -/
theorem allocuvm_atomic_iff {oldsz newsz : Nat} (own : Own K s pgdir) (pool : Pool K s)
    (maps : MapsBelow s pgdir oldsz) (le : oldsz ≤ newsz) (small : newsz < KERNBASE) :
    ∃ s' r, s.allocuvm K pgdir oldsz newsz = .ok (s', r) ∧
      (AllOrNothing s s' pgdir oldsz newsz r ↔
        s.Spared isUtable (allocPlan s pgdir oldsz newsz)) := by
  have small₁ : newsz ≤ KERNBASE := Nat.le_of_lt small
  have small₂ : oldsz ≤ KERNBASE := Nat.le_trans le small₁
  have more := pages_mono le
  have high := pages_le small₁
  have rounds : Phys.rounds (pages oldsz * PGSIZE) newsz = pages newsz - pages oldsz := by
    unfold Phys.rounds pages PGSIZE
    omega
  have absent : ∀ v, pages oldsz ≤ v → v < pages newsz → present (entry s.mem pgdir v) = false :=
    fun v from_ below => maps.absent small₂ (by omega) from_
  have loop :
      s.allocuvm K pgdir oldsz newsz =
      Phys.allocLoop K pgdir oldsz newsz (pages newsz - pages oldsz) s
        (pages oldsz * PGSIZE) := by
    unfold Phys.allocuvm
    rw [if_neg (by omega), if_neg (by omega), PGROUNDUP_eq small₂, rounds]
  rw [loop]
  rcases allocLoop_cases oldsz newsz (pages newsz - pages oldsz) s (pages oldsz) own pool
    (maps.seated small₂) (by omega) (fun v from_ below => absent v from_ (by omega)) with
    ⟨spared, ⟨s', is, filled⟩ | ⟨m, s', less, filled, is⟩⟩ | ⟨unspared, m, s', q, less,
      filled, free, is⟩
  · exact ⟨s', newsz, is, iff_of_true (.inl ⟨rfl, filled.grown maps le small₁⟩) spared⟩
  · have grows : oldsz < newsz := by
      unfold pages PGSIZE at less
      omega
    obtain ⟨s'', done, same, returned, _⟩ := giveUp_spec own grows small₁ (by omega) absent filled
    exact ⟨s'', 0, is.trans done, iff_of_true (.inr ⟨rfl, fun v _ => same v, returned⟩) spared⟩
  · obtain ⟨own₁, pool₁, _, entries, unheld⟩ := filled.own.fresh filled.pool free fun _ => 0
    obtain ⟨first, others, _⟩ := filled.pool.head free
    have off : ∀ v, pages oldsz + m ≤ v → v < pages newsz →
        present (entry (s'.taken.fill q fun _ => 0).refused.mem pgdir v) = false := by
      intro v from_ below
      show present (entry (s'.taken.fill q fun _ => 0).mem pgdir v) = false
      rw [entries, filled.off v (by omega)]
      exact absent v (by omega) below
    obtain ⟨s'', r, done, stray⟩ := allocLoop_stray (p := q) (u := pages oldsz + m) oldsz small₁
      (pages newsz - pages oldsz - m - 1) _ (pages oldsz + m + 1) own₁.refused
        pool₁.refused (by omega)
      (fun v from_ below => off v (by omega) (by omega)) ⟨others, unheld, off _ (Nat.le_refl _)
        (by omega)⟩ (by omega)
    refine ⟨s'', r, is.trans done, iff_of_false ?_ unspared⟩
    rintro (⟨_, grown⟩ | ⟨_, _, returned⟩)
    · have is := (grown.below.iff small₁ (v := pages oldsz + m) (by omega)).2 (by omega)
      exact Bool.false_ne_true (stray.absent.symm.trans is)
    · rcases returned q (filled.fewer q first) with listed | ⟨d, here⟩
      · exact stray.unlisted listed
      · exact stray.unheld (.table d) here

/-- An empty directory at page `0x400` and these free pages. -/
def bare (free : List Page) : Phys where
  mem _ _ := 0
  free := free
  calls := 0
  deny _ := false

theorem table_bare (free : List Page) : table (bare free).mem 0x400 = fun _ => none := by
  funext d
  exact if_neg fun both => Bool.false_ne_true (present_zero.symm.trans both.2)

theorem entry_bare (free : List Page) : entry (bare free).mem 0x400 = fun _ => 0 := by
  funext v
  exact entry_of_missing (congrFun (table_bare free) _)

theorem own_bare {free : List Page} (unlisted : 0x400 ∉ free) :
    Own smallKernel (bare free) 0x400 := by
  unfold Own held
  rw [table_bare, entry_bare]
  exact tenure_empty unlisted (by decide)

theorem mapsBelow_bare (free : List Page) : MapsBelow (bare free) 0x400 0 := by
  intro v _
  rw [entry_bare]
  exact iff_of_false (Bool.eq_false_iff.1 present_zero) (Nat.not_lt_zero _)

theorem pool_bare : Pool smallKernel (bare [0x401, 0x402]) := by
  refine ⟨by decide, fun p mem => ?_⟩
  rcases List.mem_pair.1 mem with rfl | rfl <;> decide

/-- With two free pages the first page is mapped. -/
theorem allocuvm_atomic_iff_one :
    ∃ s' r, (bare [0x401, 0x402]).allocuvm smallKernel 0x400 0 0x1000 = .ok (s', r) ∧
    AllOrNothing (bare [0x401, 0x402]) s' 0x400 0 0x1000 r := by
  have own : Own smallKernel (bare [0x401, 0x402]) 0x400 := own_bare (by decide)
  obtain ⟨s', r, done, atomic⟩ := allocuvm_atomic_iff own pool_bare (mapsBelow_bare _)
    (show 0 ≤ 0x1000 by decide) (by decide)
  exact ⟨s', r, done, atomic.2 (by decide)⟩

/-- With one free page there is none left for the page table: `allocuvm` reports success, the page
is not mapped, and the page allocated for it is lost. -/
theorem allocuvm_loses_page :
    ∃ s', (bare [0x401]).allocuvm smallKernel 0x400 0 0x1000 = .ok (s', 0x1000) ∧
    present (entry s'.mem 0x400 0) = false ∧ s'.free = [] ∧ table s'.mem 0x400 0 = none ∧
    ¬ AllOrNothing (bare [0x401]) s' 0x400 0 0x1000 0x1000 := by
  have absent :
    present (entry (((bare [0x401]).taken.fill 0x401 fun _ => 0).refused).mem 0x400 0) = false := by
      decide
  refine ⟨((bare [0x401]).taken.fill 0x401 fun _ => 0).refused, rfl, absent, rfl, by decide, ?_⟩
  rintro (⟨_, grown⟩ | ⟨zero, _⟩)
  · exact Bool.false_ne_true (absent.symm.trans ((grown.below 0 (by decide)).2 (by decide)))
  · exact absurd zero (by decide)

end Xv6.Vm
