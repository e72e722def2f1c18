/-
**`copyuvm`: a child gets its parent's memory.**

The child's directory is made of free pages by `setupkvm`, and each page of the parent is copied to
a free page that is mapped at the same place with the same flags. Nothing that was in use is written
to, so the parent is as before, and the pages of the two directories are different ones: what is
stored through one directory is not seen through the other.
-/

import Xv6.Vm.Copyout
import Xv6.Vm.Free

namespace Xv6.Vm

open Lib
open Function (update update_self update_of_ne update_apply)

variable {K : Layout} {s s' s'' : Phys} {pgdir d : Page}

/-! ### One round -/

/-- The pages of a directory are in use. -/
def InUse (s : Phys) (pgdir : Page) : Prop := ∀ x q, held s.mem pgdir x = some q → q ∉ s.free

/-- The pages of the two directories are different ones. -/
def Apart (m : Page → Nat → Word) (pgdir d : Page) : Prop :=
  ∀ x y q, held m pgdir x = some q → held m d y ≠ some q

/-- The pages of a directory have the same contents. -/
structure Intact (s s' : Phys) (pgdir : Page) : Prop where
  kept : ∀ x q, held s.mem pgdir x = some q → s'.mem q = s.mem q

theorem Intact.dir (intact : Intact s s' pgdir) : SameDir s s' pgdir := by
  have dir : s'.mem pgdir = s.mem pgdir := intact.kept .dir pgdir rfl
  exact ⟨entry_congr dir fun e t here => intact.kept (.table e) t here, table_congr dir⟩

theorem Intact.held (intact : Intact s s' pgdir) : held s'.mem pgdir = held s.mem pgdir := by
  have same := intact.dir
  unfold Vm.held
  rw [same.entries, same.tables]

theorem InUse.intact (inUse : InUse s pgdir) (kept : ∀ q, q ∉ s.free → s'.mem q = s.mem q) :
    Intact s s' pgdir :=
  ⟨fun x q here => kept q (inUse x q here)⟩

theorem Filled.intact {v n : Nat} {flags : Nat → Flags} {words : Nat → Nat → Word}
    (filled : Filled K s s' d v n flags words) (inUse : InUse s pgdir)
    (apart : Apart s.mem pgdir d) : Intact s s' pgdir :=
  ⟨fun x q here => filled.kept q (inUse x q here)
    (fun same => apart x .dir q here (congrArg some same.symm))
    fun e => apart x (.table e) q here⟩

theorem Filled.inUse {v n : Nat} {flags : Nat → Flags} {words : Nat → Nat → Word}
    (filled : Filled K s s' d v n flags words) (inUse : InUse s pgdir)
    (apart : Apart s.mem pgdir d) : InUse s' pgdir := by
  intro x q here mem
  rw [(filled.intact inUse apart).held] at here
  exact inUse x q here (filled.fewer q mem)

theorem Filled.held_cases {v n : Nat} {flags : Nat → Flags} {words : Nat → Nat → Word}
    (filled : Filled K s s' d v n flags words) {x : Place} {q : Page}
    (here : held s'.mem d x = some q) : held s.mem d x = some q ∨ q ∈ s.free := by
  cases x with
  | dir => exact .inl here
  | table e =>
    rcases filled.fresh e q here with known | ⟨mem, _⟩
    · exact .inl known
    · exact .inr mem
  | frame u =>
    obtain ⟨low, is, frame⟩ := held_frame_iff.1 here
    by_cases range : v ≤ u ∧ u < v + n
    · obtain ⟨p, mem, entry, _⟩ := filled.on u range.1 range.2
      rw [entry, PTE_ADDR_mkpte] at frame
      exact .inr (frame ▸ mem)
    · rw [filled.off u range] at is frame
      exact .inl (held_frame_iff.2 ⟨low, is, frame⟩)

theorem Filled.apart {v n : Nat} {flags : Nat → Flags} {words : Nat → Nat → Word}
    (filled : Filled K s s' d v n flags words) (inUse : InUse s pgdir)
    (apart : Apart s.mem pgdir d) : Apart s'.mem pgdir d := by
  intro x y q here there
  rw [(filled.intact inUse apart).held] at here
  rcases filled.held_cases there with known | mem
  · exact apart x y q here known
  · exact inUse x q here mem

theorem Filled.single {v : Nat} {p t : Page} {flags : Nat → Flags} {words : Nat → Nat → Word}
    (low : v < UPAGES) (placed : Placed K s s' pgdir v p (flags v) (words v) t) :
    Filled K s s' pgdir v 1 flags words :=
  .cons low placed (.nil placed.own placed.pool (v + 1) flags words)

/-- What the source's loop copies: the flags and the words of the parent's pages. -/
structure Reads (s : Phys) (pgdir : Page) (v n : Nat) (flags : Nat → Flags)
    (words : Nat → Nat → Word) : Prop where
  there : ∀ u, v ≤ u → u < v + n → present (entry s.mem pgdir u) = true
  flags : ∀ u, v ≤ u → u < v + n → flags u = PTE_FLAGS (entry s.mem pgdir u)
  words : ∀ u, v ≤ u → u < v + n → words u = s.mem (PTE_ADDR (entry s.mem pgdir u))

theorem Reads.next {v n : Nat} {flags : Nat → Flags} {words : Nat → Nat → Word}
    (reads : Reads s pgdir v (n + 1) flags words) (low : v + (n + 1) ≤ UPAGES)
    (intact : Intact s s' pgdir) : Reads s' pgdir (v + 1) n flags words := by
  have same := intact.dir.entries
  refine ⟨fun u from_ below => ?_, fun u from_ below => ?_, fun u from_ below => ?_⟩
  · rw [same]
    exact reads.there u (by omega) (by omega)
  · rw [same]
    exact reads.flags u (by omega) (by omega)
  · have is := reads.there u (by omega) (by omega)
    rw [same, intact.kept (.frame u) _ (held_frame_iff.2 ⟨by omega, is, rfl⟩)]
    exact reads.words u (by omega) (by omega)

/-- The `bad` exit of `copyuvm`. -/
def copyBad (K : Layout) (s : Phys) (d : Page) : Except Fault (Phys × Option Page) := do
  let s ← s.freevm K d
  return (s, none)

/-- **The loop of `copyuvm`**: all pages are copied, or some are when a page is refused, or some are
when a page table is refused. -/
theorem copyLoop_cases {flags : Nat → Flags} {words : Nat → Nat → Word} (n : Nat) (s : Phys)
    (v : Nat) (own : Own K s d) (pool : Pool K s) (seated : Seated s d v) (low : v + n ≤ UPAGES)
    (absent : ∀ u, v ≤ u → u < v + n → present (entry s.mem d u) = false) (inUse : InUse s pgdir)
    (apart : Apart s.mem pgdir d) (reads : Reads s pgdir v n flags words) :
    (∃ s', Phys.copyLoop K pgdir d n s (v * PGSIZE) = .ok (s', some d) ∧
    Filled K s s' d v n flags words ∧
      ∀ kind plan, s.Spared kind (growPlan (table s.mem d) v n ++ plan) ↔ s'.Spared kind plan) ∨
    (∃ m s', m < n ∧ Filled K s s' d v m flags words ∧
      Phys.copyLoop K pgdir d n s (v * PGSIZE) = copyBad K s'.refused d ∧
      ∀ kind plan, s.Spared kind (growPlan (table s.mem d) v n ++ plan) ↔ kind .page = false) ∨
    (∃ m s' q, m < n ∧ Filled K s s' d v m flags words ∧ s'.free = q :: s'.taken.free ∧
      Phys.copyLoop K pgdir d n s (v * PGSIZE) =
      copyBad K (s'.taken.fill q (words (v + m))).refused d ∧
      ∀ kind plan, s.Spared kind (growPlan (table s.mem d) v n ++ plan) ↔
      kind .utable = false) := by
  induction n generalizing s v with
  | zero => exact .inl ⟨s, rfl, .nil own pool v flags words, fun kind plan => Iff.rfl⟩
  | succ n ih =>
    have here : v < UPAGES := by omega
    have is := reads.there v (Nat.le_refl v) (by omega)
    obtain ⟨t, tab⟩ := exists_table is
    have walk : (s.walkpgdir pgdir (v * PGSIZE) false).2 = some (t, v % NPTENTRIES) := by
      rw [walk_known false (by rw [PDX_page (Nat.lt_of_lt_of_le here (by decide))]; exact tab),
        PTX_page]
    have pte : s.mem t (v % NPTENTRIES) = entry s.mem pgdir v := (entry_of_table tab).symm
    cases refuses : s.refuses with
    | true =>
      refine .inr
        (.inl ⟨0, s, Nat.succ_pos n, .nil own pool v flags words, ?_, fun kind plan => ?_⟩)
      · unfold Phys.copyLoop
        rw [walk]
        simp only
        rw [pte, if_neg (not_not.2 is), s.kalloc_refused refuses]
        rfl
      · unfold growPlan
        split
        · exact spared_refused refuses
        · exact spared_refused refuses
    | false =>
      obtain ⟨p, listed, kalloc⟩ := s.kalloc_taken refuses
      have round : Phys.copyLoop K pgdir d (n + 1) s (v * PGSIZE) =
          (mapOne (s.taken.fill p (words v)) d v p (flags v) >>= fun x =>
            if x.2 then Phys.copyLoop K pgdir d n x.1 ((v + 1) * PGSIZE) else copyBad K x.1 d) := by
        conv_lhs => unfold Phys.copyLoop
        rw [walk]
        simp only
        rw [pte, if_neg (not_not.2 is), kalloc, reads.flags v (Nat.le_refl v) (by omega),
          reads.words v (Nat.le_refl v) (by omega)]
        simp only
        rw [mappages_one here, Nat.add_mul, Nat.one_mul]
        rfl
      rcases own.place pool here (absent v (Nat.le_refl v) (by omega)) refuses listed (flags v)
        (words v) with
        ⟨s₁, t', done, placed⟩ | ⟨missing, fails, done⟩
      · have single : Filled K s s₁ d v 1 flags words := .single here placed
        have later : ∀ u, v + 1 ≤ u → u < v + 1 + n → present (entry s₁.mem d u) = false := by
          intro u from_ below
          rw [placed.entries, update_of_ne (by omega)]
          exact absent u (by omega) (by omega)
        have step : Phys.copyLoop K pgdir d (n + 1) s (v * PGSIZE) =
            Phys.copyLoop K pgdir d n s₁ ((v + 1) * PGSIZE) := by
          rw [round, done]
          rfl
        have plan := fun kind plan => placed.spared kind plan (n := n) seated
        rw [step]
        rcases ih s₁ (v + 1) placed.own placed.pool placed.seated (by omega) later
          (single.inUse inUse apart)
          (single.apart inUse apart) (reads.next low (single.intact inUse apart)) with
          ⟨s', is, filled, spared⟩ | ⟨m, s', less, filled, is, spared⟩ | ⟨m, s', q, less, filled,
            free, is, spared⟩
        · exact .inl ⟨s', is, filled.cons here placed,
            fun kind rest => (plan kind rest).trans (spared kind rest)⟩
        · exact .inr (.inl ⟨m + 1, s', by omega, filled.cons here placed, is,
            fun kind rest => (plan kind rest).trans (spared kind rest)⟩)
        · refine .inr (.inr ⟨m + 1, s', q, by omega, filled.cons here placed, free, ?_,
            fun kind rest => (plan kind rest).trans (spared kind rest)⟩)
          rw [is, show v + (m + 1) = v + 1 + m by omega]
      · refine .inr
          (.inr ⟨0, s, p, Nat.succ_pos n, .nil own pool v flags words, listed, ?_,
          fun kind plan => ?_⟩)
        · rw [round, done]
          rfl
        · unfold growPlan
          rw [if_pos ⟨seated.missing missing, missing⟩, List.cons_append, spared_taken refuses]
          exact spared_refused fails

/-! ### The whole call -/

/-- The pages that are free are the ones that were, and nothing in use was written to. -/
structure Restored (K : Layout) (s s' : Phys) : Prop where
  free : ∀ q, q ∈ s'.free ↔ q ∈ s.free
  kept : ∀ q, q ∉ s.free → s'.mem q = s.mem q
  deny : s'.deny = s.deny
  pool : Pool K s'

/-- A free page was lost, and nothing in use was written to. -/
structure Lost (K : Layout) (s s' : Phys) : Prop where
  lost : ∃ q ∈ s.free, q ∉ s'.free
  fewer : ∀ q ∈ s'.free, q ∈ s.free
  kept : ∀ q, q ∉ s.free → s'.mem q = s.mem q
  deny : s'.deny = s.deny
  pool : Pool K s'

/-- The child's flags and contents of a page. -/
abbrev flagsOf (s : Phys) (pgdir : Page) (v : Nat) : Flags := PTE_FLAGS (entry s.mem pgdir v)

abbrev wordsOf (s : Phys) (pgdir : Page) (v : Nat) : Nat → Word := s.mem (frameOf s pgdir v)

/-- `d` is a directory of free pages in which the first `n` pages are as in `pgdir`. -/
def Cloned (K : Layout) (s s' : Phys) (pgdir d : Page) (n : Nat) : Prop :=
  ∃ s₁, s.setupkvm K = .ok (s₁, some d) ∧ KernelDir K s s₁ d ∧
    Filled K s₁ s' d 0 n (flagsOf s pgdir) (wordsOf s pgdir)

section

variable {s₁ : Phys} {m : Nat} {flags : Nat → Flags} {words : Nat → Nat → Word}

theorem KernelDir.drawn (kernel : KernelDir K s s₁ d) (filled : Filled K s₁ s' d 0 m flags words)
    {x : Place} {q : Page} (here : held s'.mem d x = some q) : q ∈ s.free := by
  rcases filled.held_cases here with known | mem
  · exact kernel.fresh x q known
  · exact kernel.fewer q mem

theorem KernelDir.spares (kernel : KernelDir K s s₁ d)
    (filled : Filled K s₁ s' d 0 m flags words) {q : Page} (used : q ∉ s.free) :
    s'.mem q = s.mem q := by
  rw [filled.kept q (fun mem => used (kernel.fewer q mem)) (fun same => used (same ▸ kernel.listed))
    fun e here => used (kernel.fresh (.table e) q here), kernel.kept q used]

theorem KernelDir.accounts (kernel : KernelDir K s s₁ d)
    (filled : Filled K s₁ s' d 0 m flags words) {q : Page} (mem : q ∈ s.free) :
    q ∈ s'.free ∨ ∃ x, held s'.mem d x = some q := by
  rcases kernel.all q mem with listed | ⟨x, here⟩
  · exact filled.all q listed
  · cases x with
    | dir => exact .inr ⟨.dir, here⟩
    | table e => exact .inr ⟨.table e, filled.known e q here⟩
    | frame v =>
      obtain ⟨low, is, _⟩ := held_frame_iff.1 here
      rw [kernel.entries, kernelEntry_low low, present_zero] at is
      cases is

theorem copyBad_restores (kernel : KernelDir K s s₁ d) (filled : Filled K s₁ s' d 0 m flags words) :
    ∃ s'', copyBad K s'.refused d = .ok (s'', none) ∧ Restored K s s'' := by
  obtain ⟨s'', done, freed⟩ := freevm_ok filled.own.refused filled.pool.refused
  refine ⟨s'', ?_, fun q => ⟨fun mem => ?_, fun mem => ?_⟩, fun q used => ?_, ?_, freed.pool⟩
  · unfold copyBad
    rw [done]
    rfl
  · rcases (freed.free q).1 mem with listed | ⟨x, here⟩
    · exact kernel.fewer q (filled.fewer q listed)
    · exact kernel.drawn filled here
  · exact (freed.free q).2 (kernel.accounts filled mem)
  · rw [freed.kept q fun ⟨x, here⟩ => used (kernel.drawn filled here)]
    exact kernel.spares filled used
  · exact freed.deny.trans (filled.deny.trans kernel.deny)

/-- **The `bad` exit after a refused page table**: the page that was to be mapped is lost. -/
theorem copyBad_loses (kernel : KernelDir K s s₁ d)
    (filled : Filled K s₁ s' d 0 m flags words) {q : Page} (listed : s'.free = q :: s'.taken.free)
    (contents : Nat → Word) :
    ∃ s'', copyBad K (s'.taken.fill q contents).refused d = .ok (s'', none) ∧ Lost K s s'' := by
  obtain ⟨own, pool, tables, entries, unheld⟩ := filled.own.fresh filled.pool listed contents
  have same : held (s'.taken.fill q contents).mem d = held s'.mem d := by
    unfold held
    rw [tables, entries]
  obtain ⟨first, others, _⟩ := filled.pool.head listed
  have wasFree : q ∈ s.free := kernel.fewer q (filled.fewer q first)
  obtain ⟨s'', done, freed⟩ := freevm_ok own.refused pool.refused
  have drawn : ∀ {x p}, held (s'.taken.fill q contents).mem d x = some p → p ∈ s.free := by
    intro x p here
    rw [same] at here
    exact kernel.drawn filled here
  refine ⟨s'', ?_, ⟨q, wasFree, fun mem => ?_⟩, fun p mem => ?_, fun p used => ?_, ?_, freed.pool⟩
  · unfold copyBad
    rw [done]
    rfl
  · rcases (freed.free q).1 mem with still | ⟨x, here⟩
    · exact others still
    · exact unheld x here
  · rcases (freed.free p).1 mem with still | ⟨x, here⟩
    · exact kernel.fewer p (filled.fewer p (listed ▸ List.mem_cons_of_mem q still))
    · exact drawn here
  · rw [freed.kept p fun ⟨x, here⟩ => used (drawn here)]
    exact (update_of_ne (fun is : p = q => used (is ▸ wasFree)) _ _).trans
      (kernel.spares filled used)
  · exact freed.deny.trans (filled.deny.trans kernel.deny)

end

/-- The calls of `kalloc` that `copyuvm` makes. -/
def copyPlan (sz : Nat) : List Use := .page :: (kernelPlan ++ growPlan (fun _ => none) 0 (pages sz))

/-- **The ways of `copyuvm`**: a copy; a refused page, with which all is as before; or a refused
page table, with which pages are lost. -/
theorem copyuvm_cases {sz : Nat} (pool : Pool K s) (inUse : InUse s pgdir) (small : sz ≤ KERNBASE)
    (there : ∀ v < pages sz, present (entry s.mem pgdir v) = true) :
    (∃ s' d, s.copyuvm K pgdir sz = .ok (s', some d) ∧ Cloned K s s' pgdir d (pages sz) ∧
      ∀ kind plan, s.Spared kind (copyPlan sz ++ plan) ↔ s'.Spared kind plan) ∨
    (∃ s', s.copyuvm K pgdir sz = .ok (s', none) ∧ Restored K s s' ∧
      ∀ kind plan, s.Spared kind (copyPlan sz ++ plan) ↔ kind .page = false) ∨
    (∃ s' use, s.copyuvm K pgdir sz = .ok (s', none) ∧ Lost K s s' ∧ use ≠ .page ∧
      ∀ kind plan, s.Spared kind (copyPlan sz ++ plan) ↔ kind use = false) := by
  have high := pages_le small
  have rounds : Phys.rounds 0 sz = pages sz := rfl
  unfold copyPlan
  simp only [List.cons_append, List.append_assoc]
  rcases setupkvm_cases pool
    with ⟨refuses, setup⟩ | ⟨_, s₁, d, setup, kernel, _, spared⟩ | ⟨_, s₁, d, setup, leaked, spared⟩
  · refine .inr
      (.inl ⟨s.refused, ?_, ⟨fun _ => Iff.rfl, fun _ _ => rfl, rfl, pool.refused⟩, fun kind plan =>
      spared_refused refuses⟩)
    unfold Phys.copyuvm
    rw [setup]
    rfl
  · have intact : Intact s s₁ pgdir := inUse.intact kernel.kept
    have inUse₁ : InUse s₁ pgdir := by
      intro x q here mem
      rw [intact.held] at here
      exact inUse x q here (kernel.fewer q mem)
    have apart : Apart s₁.mem pgdir d := by
      intro x y q here there
      rw [intact.held] at here
      exact inUse x q here (kernel.fresh y q there)
    have reads : Reads s₁ pgdir 0 (pages sz) (flagsOf s pgdir) (wordsOf s pgdir) := by
      refine ⟨fun u _ below => ?_, fun u _ _ => ?_, fun u _ below => ?_⟩
      · rw [intact.dir.entries]
        exact there u (by omega)
      · rw [intact.dir.entries]
      · rw [intact.dir.entries,
          intact.kept (.frame u) _ (held_frame_iff.2 ⟨by omega, there u (by omega), rfl⟩)]
        rfl
    have absent : ∀ u, 0 ≤ u → u < 0 + pages sz → present (entry s₁.mem d u) = false := by
      intro u _ below
      rw [kernel.entries, kernelEntry_low (by omega), present_zero]
    have plans :
        growPlan (table s₁.mem d) 0 (pages sz) = growPlan (fun _ => none) 0 (pages sz) := by
      refine growPlan_congr _ _ fun e _ below => kernel.low e ?_
      omega
    have call : s.copyuvm K pgdir sz = Phys.copyLoop K pgdir d (pages sz) s₁ (0 * PGSIZE) := by
      unfold Phys.copyuvm
      rw [setup, rounds, Nat.zero_mul]
      rfl
    rw [← plans]
    rcases copyLoop_cases (pages sz) s₁ 0 kernel.own kernel.pool
      (fun inner => absurd (Nat.zero_mod _) inner) (by omega) absent inUse₁ apart reads with
      ⟨s', done, filled, later⟩ | ⟨m, s', _, filled, done, later⟩ | ⟨m, s', q, _, filled, listed,
        done, later⟩
    · exact .inl ⟨s', d, call.trans done, ⟨s₁, setup, kernel, filled⟩, fun kind plan =>
        (spared kind _).trans (later kind plan)⟩
    · obtain ⟨s'', freed, restored⟩ := copyBad_restores kernel filled
      exact .inr (.inl ⟨s'', call.trans (done.trans freed), restored, fun kind plan =>
        (spared kind _).trans (later kind plan)⟩)
    · obtain ⟨s'', freed, lost⟩ := copyBad_loses kernel filled listed (wordsOf s pgdir (0 + m))
      exact .inr
        (.inr ⟨s'', .utable, call.trans (done.trans freed), lost, Use.noConfusion, fun kind plan =>
        (spared kind _).trans (later kind plan)⟩)
  · refine .inr
      (.inr ⟨s₁, .ktable, ?_,
      ⟨⟨d, leaked.listed, leaked.lost⟩, leaked.fewer, leaked.kept, leaked.deny, leaked.pool⟩,
      Use.noConfusion, fun kind plan => spared kind _⟩)
    unfold Phys.copyuvm
    rw [setup]
    rfl

/-! ### Stores through the two directories -/

/-- What is seen at an address, if it is mapped. -/
def look (s : Phys) (pgdir : Page) (a : Nat) : Option (BitVec 8) :=
  if present (entry s.mem pgdir (a / PGSIZE)) then some (seen s pgdir a) else none

/-- A byte is stored at an address, if it is mapped. -/
def store (s : Phys) (pgdir : Page) (a : Nat) (b : BitVec 8) : Phys :=
  if present (entry s.mem pgdir (a / PGSIZE)) then s.putByte (frameOf s pgdir (a / PGSIZE))
    (a % PGSIZE) b else s

/-- Bytes are stored at addresses, one after the other. -/
def stores (s : Phys) (pgdir : Page) : List (Nat × BitVec 8) → Phys
  | [] => s
  | x :: rest => stores (store s pgdir x.1 x.2) pgdir rest

/-- The first `n` pages of a directory are neither it nor its tables. -/
def Sealed (s : Phys) (pgdir : Page) (n : Nat) : Prop :=
  ∀ v < n, present (entry s.mem pgdir v) = true → frameOf s pgdir v ≠ pgdir ∧
    ∀ e, table s.mem pgdir e ≠ some (frameOf s pgdir v)

theorem Sealed.store {n : Nat} (sealed : Sealed s pgdir n) {a : Nat} (below : a / PGSIZE < n)
    (b : BitVec 8) : SameDir s (store s pgdir a b) pgdir := by
  unfold Vm.store
  split
  · next is =>
      obtain ⟨notDir, notTable⟩ := sealed _ below is
      have dir := mem_putByte s (a % PGSIZE) b notDir.symm
      refine ⟨entry_congr dir fun e t here => mem_putByte s _ b ?_, table_congr dir⟩
      rintro rfl
      exact notTable e here
  · exact .refl s pgdir

theorem SameDir.sealed {n : Nat} (same : SameDir s s' pgdir) (sealed : Sealed s pgdir n) :
    Sealed s' pgdir n := by
  intro v below is
  rw [same.frameOf, same.tables]
  rw [same.entries] at is
  exact sealed v below is

theorem stores_kept {n : Nat} (sealed : Sealed s pgdir n) {q : Page}
    (other : ∀ v < n, present (entry s.mem pgdir v) = true → q ≠ frameOf s pgdir v)
    (l : List (Nat × BitVec 8)) (below : ∀ x ∈ l, x.1 / PGSIZE < n) :
    (stores s pgdir l).mem q = s.mem q := by
  induction l generalizing s with
  | nil => rfl
  | cons x rest ih =>
    have here := below x List.mem_cons_self
    have same := sealed.store here x.2
    have step : (store s pgdir x.1 x.2).mem q = s.mem q := by
      unfold store
      split
      · next is => exact mem_putByte s _ _ (other _ here is)
      · rfl
    rw [← step]
    refine ih (same.sealed sealed)
      (fun v low is => ?_) fun y mem => below y (List.mem_cons_of_mem x mem)
    rw [same.frameOf]
    rw [same.entries] at is
    exact other v low is

theorem Intact.look (intact : Intact s s' pgdir) {a : Nat} (user : a < KERNBASE) :
    look s' pgdir a = look s pgdir a := by
  have low : a / PGSIZE < UPAGES := by
    unfold UPAGES PGSIZE KERNBASE at *
    omega
  unfold Vm.look
  rw [intact.dir.entries]
  split
  · next is =>
      unfold seen
      rw [intact.dir.frameOf]
      exact congrArg some
        (byte_congr (intact.kept (.frame (a / PGSIZE)) _ (held_frame_iff.2 ⟨low, is, rfl⟩)) _)
  · rfl

/-! ### The copy -/

/-- **The child has its parent's memory**: the same bytes and flags below `sz`, no other user pages
and the kernel part of `setupkvm`; and from now on neither sees what is stored through the other's
directory. -/
structure Copied (K : Layout) (s s' : Phys) (pgdir d : Page) (sz : Nat) : Prop where
  parent : ∀ a < KERNBASE, look s' pgdir a = look s pgdir a
  bytes : ∀ a < PGROUNDUP sz, ∃ b, look s' pgdir a = some b ∧ look s' d a = some b
  flags :
    ∀ v, v * PGSIZE < PGROUNDUP sz → PTE_FLAGS (entry s'.mem d v) = PTE_FLAGS (entry s'.mem pgdir v)
  beyond : ∀ v < UPAGES, PGROUNDUP sz ≤ v * PGSIZE → present (entry s'.mem d v) = false
  kernel : ∃ s₁, s.setupkvm K = .ok (s₁, some d) ∧ ∀ v, UPAGES ≤ v →
    entry s'.mem d v = entry s₁.mem d v
  throughParent : ∀ l : List (Nat × BitVec 8), (∀ x ∈ l, x.1 < PGROUNDUP sz) → ∀ a < KERNBASE,
    look (stores s' pgdir l) d a = look s' d a
  throughChild : ∀ l : List (Nat × BitVec 8), (∀ x ∈ l, x.1 < PGROUNDUP sz) → ∀ a < KERNBASE,
    look (stores s' d l) pgdir a = look s' pgdir a

theorem present_flags {w : Word} (is : present w = true) : PTE_FLAGS w ||| PTE_P = PTE_FLAGS w := by
  rw [present_iff] at is
  ext i low
  rw [BitVec.getElem_or, PTE_P_eq, BitVec.getElem_twoPow]
  by_cases first : i = 0
  · subst first
    rw [← BitVec.getLsbD_eq_getElem, is]
    rfl
  · rw [decide_eq_false (by omega), Bool.or_false]

theorem Own.sealed (own : Own K s pgdir) : Sealed s pgdir UPAGES := by
  intro v low is
  have here : held s.mem pgdir (.frame v) = some (frameOf s pgdir v) :=
    held_frame_iff.2 ⟨low, is, rfl⟩
  refine ⟨fun same => ?_, fun e there => ?_⟩
  · exact nomatch own.inj (y := .dir) here (congrArg some same.symm)
  · exact nomatch own.inj (y := .table e) here there

theorem page_lt {a sz : Nat} (small : sz ≤ KERNBASE) :
    a < PGROUNDUP sz ↔ a / PGSIZE < pages sz := by
  rw [PGROUNDUP_eq small]
  exact (Nat.div_lt_iff_lt_mul (by decide)).symm

/-- **`copyuvm` copies**, for a parent whose pages below `sz` are present, whose pages are not free,
and whose memory is not its own page tables. -/
theorem copyuvm_copies {sz : Nat} (pool : Pool K s) (inUse : InUse s pgdir) (small : sz ≤ KERNBASE)
    (there : ∀ v, v * PGSIZE < sz → present (entry s.mem pgdir v) = true)
    (sealed : Sealed s pgdir (pages sz)) (done : s.copyuvm K pgdir sz = .ok (s', some d)) :
    Copied K s s' pgdir d sz := by
  have high := pages_le small
  have there : ∀ v < pages sz, present (entry s.mem pgdir v) = true :=
    fun v below => there v (lt_pages.2 below)
  obtain ⟨s₁, setup, kernel, filled⟩ : Cloned K s s' pgdir d (pages sz) := by
    rcases copyuvm_cases pool inUse small there
      with ⟨s₂, d₂, is, cloned, _⟩ | ⟨s₂, is, _⟩ | ⟨s₂, use, is, _⟩
    · cases is.symm.trans done
      exact cloned
    · cases is.symm.trans done
    · cases is.symm.trans done
  have intact : Intact s s' pgdir := inUse.intact fun q used => kernel.spares filled used
  have apart : ∀ {x y q}, held s'.mem pgdir x = some q → held s'.mem d y ≠ some q := by
    intro x y q here there
    rw [intact.held] at here
    exact inUse x q here (kernel.drawn filled there)
  have on : ∀ v < pages sz, ∃ p, entry s'.mem d v = mkpte p (flagsOf s pgdir v) ∧
    s'.mem p = wordsOf s pgdir v := by
    intro v below
    obtain ⟨p, _, is, has⟩ := filled.on v (Nat.zero_le v) (by omega)
    rw [present_flags (there v below)] at is
    exact ⟨p, is, has⟩
  have frame : ∀ {m : Phys} {e : Page} {v}, v < pages sz → present (entry m.mem e v) = true →
      held m.mem e (.frame v) = some (frameOf m e v) :=
    fun below is => held_frame_iff.2 ⟨by omega, is, rfl⟩
  refine ⟨fun a user => intact.look user, fun a below => ?_, fun v below => ?_,
    fun v low beyond => ?_, ⟨s₁, setup, fun v kern => ?_⟩, fun l within a user => ?_,
    fun l within a user => ?_⟩
  · have low := (page_lt small).1 below
    obtain ⟨p, is, has⟩ := on (a / PGSIZE) low
    refine ⟨seen s pgdir a, ?_, ?_⟩
    · have user : a < KERNBASE := by
        unfold UPAGES PGSIZE KERNBASE at *
        omega
      rw [intact.look user, look, if_pos (there _ low)]
    · have flags : present (entry s'.mem d (a / PGSIZE)) = true := by
        rw [present_iff, is, PTE_FLAGS_mkpte]
        exact present_iff.1 (there _ low)
      unfold look seen
      rw [if_pos flags]
      unfold frameOf
      rw [is, PTE_ADDR_mkpte]
      unfold Phys.byte
      rw [has]
      rfl
  · have low := (page_lt small).1 below
    rw [Nat.mul_div_cancel _ (by decide)] at low
    obtain ⟨p, is, _⟩ := on v low
    rw [is, PTE_FLAGS_mkpte, intact.dir.entries]
  · have outside : ¬ v < pages sz := by
      intro inside
      rw [PGROUNDUP_eq small, Nat.mul_le_mul_right_iff (by decide)] at beyond
      omega
    rw [filled.off v (by omega), kernel.entries, kernelEntry_low low, present_zero]
  · rw [filled.off v (by omega)]
  · have kept : Intact s' (stores s' pgdir l) d := by
      refine ⟨fun y q held => stores_kept (intact.dir.sealed sealed)
        (fun v low is same => ?_) l fun x mem =>
        (page_lt small).1 (within x mem)⟩
      subst same
      exact apart (frame low is) held
    exact kept.look user
  · have kept : Intact s' (stores s' d l) pgdir := by
      refine ⟨fun y q held => stores_kept (n := pages sz)
        (fun v low is => filled.own.sealed v (by omega) is)
        (fun v low is same => ?_) l fun x mem => (page_lt small).1 (within x mem)⟩
      subst same
      exact apart held (frame low is)
    exact kept.look user

/-! ### The copy is given back -/

theorem stores_sameDir (sealed : Sealed s pgdir UPAGES) (l : List (Nat × BitVec 8))
    (below : ∀ x ∈ l, x.1 / PGSIZE < UPAGES) :
    SameDir s (stores s pgdir l) pgdir ∧ (stores s pgdir l).free = s.free ∧
      (stores s pgdir l).deny = s.deny := by
  induction l generalizing s with
  | nil => exact ⟨.refl s pgdir, rfl, rfl⟩
  | cons x rest ih =>
    have same := sealed.store (below x List.mem_cons_self) x.2
    have step : (store s pgdir x.1 x.2).free = s.free ∧ (store s pgdir x.1 x.2).deny = s.deny := by
      unfold store
      split <;> exact ⟨rfl, rfl⟩
    obtain ⟨later, free, deny⟩ :=
      ih (same.sealed sealed) fun y mem => below y (List.mem_cons_of_mem x mem)
    exact ⟨same.trans later, free.trans step.1, deny.trans step.2⟩

/-- **`freevm` gives back what `copyuvm` took**, whatever the child stored in its memory: the free
pages are those from before the copy, and no page that was in use then was written to. -/
theorem copyuvm_freevm {sz : Nat} (pool : Pool K s) (inUse : InUse s pgdir) (small : sz ≤ KERNBASE)
    (there : ∀ v, v * PGSIZE < sz → present (entry s.mem pgdir v) = true)
    (done : s.copyuvm K pgdir sz = .ok (s', some d)) (l : List (Nat × BitVec 8))
    (user : ∀ x ∈ l, x.1 / PGSIZE < UPAGES) :
    ∃ s'', (stores s' d l).freevm K d = .ok s'' ∧ Restored K s s'' := by
  obtain ⟨s₁, _, kernel, filled⟩ : Cloned K s s' pgdir d (pages sz) := by
    rcases copyuvm_cases pool inUse small fun v below => there v (lt_pages.2 below) with
      ⟨s₂, d₂, is, cloned, _⟩ | ⟨s₂, is, _⟩ | ⟨s₂, use, is, _⟩
    · cases is.symm.trans done
      exact cloned
    · cases is.symm.trans done
    · cases is.symm.trans done
  have sealed := filled.own.sealed
  obtain ⟨same, free, deny⟩ := stores_sameDir sealed l user
  have held' : held (stores s' d l).mem d = held s'.mem d := by
    unfold held
    rw [same.entries, same.tables]
  have own : Own K (stores s' d l) d := by
    unfold Own
    rw [held', free]
    exact filled.own
  have pool' : Pool K (stores s' d l) := ⟨free ▸ filled.pool.nodup, free ▸ filled.pool.valid⟩
  obtain ⟨s'', freed, gone⟩ := freevm_ok own pool'
  rw [held'] at gone
  refine ⟨s'', freed, fun q => ?_, fun q used => ?_,
    gone.deny.trans (deny.trans (filled.deny.trans kernel.deny)), gone.pool⟩
  · rw [gone.free, free]
    refine ⟨?_, kernel.accounts filled⟩
    rintro (listed | ⟨x, here⟩)
    · exact kernel.fewer q (filled.fewer q listed)
    · exact kernel.drawn filled here
  · rw [gone.kept q fun ⟨x, here⟩ => used (kernel.drawn filled here), stores_kept sealed ?_ l user,
      kernel.spares filled used]
    rintro v low is rfl
    exact used (kernel.drawn filled (held_frame_iff.2 ⟨low, is, rfl⟩))

/-- A directory of one page, and seventy free pages. -/
def stocked : Phys :=
  { oneTable 0 with free := (List.range 70).map fun i => BitVec.ofNat 20 (0x500 + i) }

theorem free_stocked {q : Page} (mem : q ∈ stocked.free) : 0x500 ≤ q.toNat ∧ q.toNat < 0x600 := by
  obtain ⟨i, below, rfl⟩ := List.mem_map.1 mem
  rw [List.mem_range] at below
  rw [BitVec.toNat_ofNat]
  omega

theorem pool_stocked : Pool smallKernel stocked := by
  refine ⟨List.Nodup.map_on (fun i first j second same => ?_) List.nodup_range, fun q mem => ?_⟩
  · rw [List.mem_range] at first second
    have same := congrArg BitVec.toNat same
    rw [BitVec.toNat_ofNat, BitVec.toNat_ofNat] at same
    omega
  · obtain ⟨above, below⟩ := free_stocked mem
    show 0x300000 ≤ q.toNat * 4096 ∧ q.toNat * 4096 < 0xE000000
    omega

theorem held_oneTable {x : Place} {q : Page} (here : held (oneTable 0).mem 0x400 x = some q) :
    q = 0x400 ∨ q = 0x401 ∨ q = 0x402 := by
  cases x with
  | dir => exact .inl (Option.some.inj here).symm
  | table e =>
    have here : table (oneTable 0).mem 0x400 e = some q := here
    rw [table_oneTable (by decide), update_apply] at here
    split at here
    · exact .inr (.inl (Option.some.inj here).symm)
    · cases here
  | frame v =>
    obtain ⟨_, is, frame⟩ := held_frame_iff.1 here
    rw [entry_oneTable (by decide), update_apply] at is frame
    split at frame
    · rw [PTE_ADDR_mkpte] at frame
      exact .inr (.inr frame.symm)
    · next other =>
        rw [if_neg other, present_zero] at is
        cases is

theorem inUse_stocked : InUse stocked 0x400 := by
  intro x q here mem
  obtain ⟨above, _⟩ := free_stocked mem
  rcases held_oneTable here with rfl | rfl | rfl <;> exact absurd above (by decide)

theorem there_stocked {v : Nat} (below : v * PGSIZE < 0x1000) :
    present (entry stocked.mem 0x400 v) = true := by
  have first : v = 0 := by
    unfold PGSIZE at below
    omega
  subst first
  decide

theorem copyuvm_copies_page : ∃ s' d, stocked.copyuvm smallKernel 0x400 0x1000 = .ok (s', some d) ∧
    Copied smallKernel stocked s' 0x400 d 0x1000 := by
  have small : 0x1000 ≤ KERNBASE := by decide
  have own : Own smallKernel (oneTable 0) 0x400 := own_oneTable (by decide) (by decide)
  have sealed : Sealed stocked 0x400 (pages 0x1000) := by
    intro v below is
    exact own.sealed v (Nat.lt_of_lt_of_le below (pages_le small)) is
  have plenty : stocked.Spared (fun _ => true) (copyPlan 0x1000 ++ []) := by decide
  rcases copyuvm_cases pool_stocked inUse_stocked small fun v below =>
    there_stocked (lt_pages.2 below) with
    ⟨s', d, done, _⟩ | ⟨_, _, _, refused⟩ | ⟨_, _, _, _, _, refused⟩
  · exact ⟨s', d, done,
      copyuvm_copies pool_stocked inUse_stocked small (fun v => there_stocked) sealed done⟩
  · exact nomatch (refused _ _).1 plenty
  · exact nomatch (refused _ _).1 plenty

/-- The child stores a byte before it is gone. -/
theorem copyuvm_freevm_page :
    ∃ s' d s'', stocked.copyuvm smallKernel 0x400 0x1000 = .ok (s', some d) ∧
    (stores s' d [(8, 1)]).freevm smallKernel d = .ok s'' ∧ Restored smallKernel stocked s'' := by
  have plenty : stocked.Spared (fun _ => true) (copyPlan 0x1000 ++ []) := by decide
  rcases copyuvm_cases pool_stocked inUse_stocked (by decide) fun v below =>
    there_stocked (lt_pages.2 below) with
    ⟨s', d, done, _⟩ | ⟨_, _, _, refused⟩ | ⟨_, _, _, _, _, refused⟩
  · obtain ⟨s'', freed, restored⟩ :=
      copyuvm_freevm pool_stocked inUse_stocked (by decide) (fun v => there_stocked) done
      [(8, 1)] (by decide)
    exact ⟨s', d, s'', done, freed, restored⟩
  · exact nomatch (refused _ _).1 plenty
  · exact nomatch (refused _ _).1 plenty

end Xv6.Vm
