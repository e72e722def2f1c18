/-
**Does the reservation of `begin_op` suffice?**

`begin_op` reserves `MAXOPBLOCKS` log blocks for each operation, up to `LOGSIZE` of them in all. On
an image with `nlog = LOGSIZE` one of these blocks is the header, and `log_write` checks for a free
slot before it looks whether the sector is absorbed. So it panics exactly when `LOGSIZE - 1`
distinct sectors have been logged since the last commit.
-/

import Mathlib.Algebra.Group.Action.Defs
import Mathlib.Algebra.Order.BigOperators.Group.Finset
import Xv6.Log.Group

namespace Xv6

open Lib Function

/-- The sectors process `p` log_wrote since it last called `begin_op`. -/
def opWrites (p : Nat) (es : List Event) : List UInt32 :=
  es.foldl (fun written e => if e.1 = p then
    match e.2 with
    | .logWrite sector => written ++ [sector]
    | .beginOp => []
    | _ => written
    else written) []

theorem opWrites_snoc (p : Nat) (es : List Event) (e : Event) :
    opWrites p (es ++ [e]) = if e.1 = p then
      match e.2 with
      | .logWrite sector => opWrites p es ++ [sector]
      | .beginOp => []
      | _ => opWrites p es
      else opWrites p es := by
  unfold opWrites
  rw [List.foldl_append]
  rfl

theorem opWrites_other {p : Nat} {e : Event} (other : e.1 ≠ p) (es : List Event) :
    opWrites p (es ++ [e]) = opWrites p es := by
  rw [opWrites_snoc, if_neg other]

/-- Every operation log_writes at most `budget` distinct sectors. -/
def Budgeted (budget : Nat) (es : List Event) : Prop :=
  ∀ before ∈ es.inits, ∀ e ∈ es, (opWrites e.1 before).toFinset.card ≤ budget

instance (budget : Nat) (es : List Event) : Decidable (Budgeted budget es) :=
  inferInstanceAs (Decidable (∀ before ∈ es.inits, ∀ e ∈ es, _))

theorem Budgeted.of_snoc {budget : Nat} {es : List Event} {e : Event}
    (within : Budgeted budget (es ++ [e])) : Budgeted budget es := by
  intro before member f inside
  refine within before ?_ f (List.mem_append_left _ inside)
  rw [List.mem_inits] at member ⊢
  exact member.trans (List.prefix_append _ _)

theorem Budgeted.last {budget : Nat} {es : List Event} {e : Event}
    (within : Budgeted budget (es ++ [e])) : (opWrites e.1 (es ++ [e])).toFinset.card ≤ budget :=
  within _ ((List.mem_inits _ _).mpr List.prefix_rfl) e (by simp)

/-! ### The exact condition -/

theorem Sys.size_step {s t : Sys} {e : Event} (step : Sys.Step s e t) :
    t.log.size = s.log.size := by
  cases step with
  | stepped p c next log at' moves =>
    cases c with
    | entry =>
      simp only [Sys.commitNext] at moves
      split at moves <;> cases moves <;> rfl
    | finish => cases moves
    | _ =>
      cases moves
      rfl
  | _ => rfl

theorem Sys.size_of_run {size nlog : Nat} {es : List Event} {s : Sys}
    (run : es.foldlM Sys.exec (Sys.init size nlog) = .ok s) : s.log.size = nlog :=
  run_invariant (fun _ s => s.log.size = nlog) rfl
    (fun _ _ _ _ same done => (Sys.size_step (Sys.step_of_exec done)).trans same) es s run

/-- **Inside an operation, `n` counts the distinct sectors logged since the last commit.** -/
theorem GroupInv.card_sinceCommit {es : List Event} {s : Sys} (inv : GroupInv es s) {p : Nat}
    (inside : s.pc p = .inOp) : (sinceCommit es).toFinset.card = s.log.lh.n := by
  have same : (sinceCommit es).toFinset = s.log.lh.sector.toFinset := by
    ext x
    rw [List.mem_toFinset, List.mem_toFinset, inv.logged fun q c at' =>
      absurd at' (inv.no_commit (inv.not_committing_of_op inside) q c)]
  rw [same, List.toFinset_card_of_nodup inv.distinct]
  rfl

theorem tooBig_iff {size : Nat} {es : List Event} {s : Sys}
    (run : es.foldlM Sys.exec (Sys.init size LOGSIZE) = .ok s) {p : Nat} (inside : s.pc p = .inOp)
    (sector : UInt32) :
    s.log.write sector = .error .tooBigATransaction ↔
      LOGSIZE - 1 ≤ (sinceCommit es).toFinset.card := by
  rw [Log.write_eq_tooBig, (GroupInv.of_run run).card_sinceCommit inside, Log.capacity,
    Sys.size_of_run run, min_eq_right (Nat.sub_le _ _)]

/-! ### One below the budget is enough -/

/-- **What is logged and what may still be logged stays below the last slot.** -/
structure ReserveInv (es : List Event) (s : Sys) : Prop where
  own : ∀ p, s.pc p = .inOp → ∀ x ∈ opWrites p es, x ∈ s.log.lh.sector
  reserved : ∀ ops : Finset Nat, (∀ p, p ∈ ops ↔ s.pc p = .inOp) → ops.Nonempty →
    s.log.lh.n + ∑ p ∈ ops, (MAXOPBLOCKS - 1 - (opWrites p es).toFinset.card) ≤ LOGSIZE - 2

namespace ReserveInv

variable {es : List Event} {s t : Sys}

theorem of_no_op (none : ∀ p, s.pc p ≠ .inOp) : ReserveInv es s := by
  refine ⟨fun p inside => absurd inside (none p), fun ops member nonempty => ?_⟩
  obtain ⟨p, inside⟩ := nonempty
  exact absurd ((member p).mp inside) (none p)

theorem slept (inv : ReserveInv es s) (p : Nat) (ready : s.pc p = .idle ∨ s.pc p = .woken) :
    ReserveInv (es ++ [(p, .beginOp)]) { s with pc := update s.pc p .asleep } := by
  have notOp : s.pc p ≠ .inOp := by rcases ready with at' | at' <;> rw [at'] <;> decide
  have same : ∀ q, update s.pc p .asleep q = .inOp ↔ s.pc q = .inOp :=
    GroupInv.update_eq_iff notOp (by decide)
  have other : ∀ q, s.pc q = .inOp → p ≠ q := by
    rintro q inside rfl
    exact notOp inside
  refine ⟨fun q inside => ?_, fun ops member nonempty => ?_⟩
  · rw [opWrites_other (other q ((same q).mp inside))]
    exact inv.own q ((same q).mp inside)
  · have member' : ∀ q, q ∈ ops ↔ s.pc q = .inOp := fun q => (member q).trans (same q)
    rw [Finset.sum_congr rfl fun q inside => by
      rw [opWrites_other (other q ((member' q).mp inside))]]
    exact inv.reserved ops member' nonempty

theorem admitted (group : GroupInv es s) (inv : ReserveInv es s) (p : Nat)
    (ready : s.pc p = .idle ∨ s.pc p = .woken) (quiet : s.log.committing = false)
    (room : s.log.lh.n + (s.log.outstanding + 1) * MAXOPBLOCKS ≤ LOGSIZE) :
    ReserveInv (es ++ [(p, .beginOp)])
      ⟨{ s.log with outstanding := s.log.outstanding + 1 }, update s.pc p .inOp⟩ := by
  have cleared : opWrites p (es ++ [(p, .beginOp)]) = [] := by
    rw [opWrites_snoc, if_pos rfl]
  refine ⟨fun q inside x member => ?_, fun ops member _ => ?_⟩
  · by_cases same : q = p
    · subst same
      rw [cleared] at member
      cases member
    · have inside' : update s.pc p .inOp q = .inOp := inside
      rw [update_of_ne same] at inside'
      rw [opWrites_other (Ne.symm same)] at member
      exact inv.own q inside' x member
  · -- the admission test bounds the whole reservation, one block of which nobody uses
    have bound : ∑ q ∈ ops, (MAXOPBLOCKS - 1 - (opWrites q (es ++ [(p, .beginOp)])).toFinset.card) ≤
        ops.card * (MAXOPBLOCKS - 1) := by
      rw [← smul_eq_mul]
      exact Finset.sum_le_card_nsmul _ _ _ fun q _ => Nat.sub_le _ _
    obtain ⟨old, memberOld, count⟩ := group.counted
    have notOp : s.pc p ≠ .inOp := by rcases ready with at' | at' <;> rw [at'] <;> decide
    have grown : ops = insert p old := by
      ext q
      rw [member, Finset.mem_insert, memberOld]
      show update s.pc p .inOp q = .inOp ↔ _
      by_cases same : q = p
      · subst same
        rw [update_self]
        exact ⟨fun _ => Or.inl rfl, fun _ => rfl⟩
      · rw [update_of_ne same]
        exact ⟨Or.inr, fun either => either.resolve_left same⟩
    have size : ops.card = old.card + 1 := by
      rw [grown, Finset.card_insert_of_notMem fun inside => notOp ((memberOld p).mp inside)]
    show s.log.lh.n + _ ≤ _
    refine le_trans (Nat.add_le_add_left bound _) ?_
    rw [size]
    by_cases first : old.card = 0
    · have empty : s.log.lh = LogHeader.empty := group.quiet (by omega) quiet
      rw [empty, first]
      decide
    · rw [count] at room
      simp only [MAXOPBLOCKS, LOGSIZE] at room ⊢
      omega

theorem logged (inv : ReserveInv es s) (p : Nat) (sector : UInt32) (inside : s.pc p = .inOp)
    (fits : s.log.lh.n < LOGSIZE)
    (within : Budgeted (MAXOPBLOCKS - 1) (es ++ [(p, .logWrite sector)])) :
    ReserveInv (es ++ [(p, .logWrite sector)])
      { s with log := { s.log with lh := s.log.lh.absorb sector fits } } := by
  have written : opWrites p (es ++ [(p, .logWrite sector)]) = opWrites p es ++ [sector] := by
    rw [opWrites_snoc, if_pos rfl]
  have set : (opWrites p (es ++ [(p, .logWrite sector)])).toFinset =
      insert sector (opWrites p es).toFinset := by
    rw [written]
    ext x
    simp
  refine ⟨fun q insideQ x member => ?_, fun ops member nonempty => ?_⟩
  · show x ∈ (s.log.lh.absorb sector fits).sector
    rw [LogHeader.mem_absorb]
    by_cases same : q = p
    · subst same
      rw [written, List.mem_append, List.mem_singleton] at member
      exact member.imp (inv.own q inside x) id
    · rw [opWrites_other (Ne.symm same)] at member
      exact Or.inl (inv.own q insideQ x member)
  · have present : p ∈ ops := (member p).mpr inside
    have old := inv.reserved ops member nonempty
    rw [← Finset.add_sum_erase ops _ present] at old ⊢
    rw [Finset.sum_congr rfl fun q inside => by
      rw [opWrites_other (Finset.ne_of_mem_erase inside).symm]]
    have budget := within.last
    simp only [set] at budget ⊢
    show (s.log.lh.absorb sector fits).n + _ ≤ _
    by_cases known : sector ∈ s.log.lh.sector
    · -- absorbed: the header does not grow, and the operation's own count does not shrink
      rw [LogHeader.n_absorb_known fits known]
      have grows : (opWrites p es).toFinset.card ≤ (insert sector (opWrites p es).toFinset).card :=
        Finset.card_le_card (Finset.subset_insert _ _)
      omega
    · -- a new slot is paid from the operation's own budget
      have fresh : sector ∉ (opWrites p es).toFinset := by
        rw [List.mem_toFinset]
        exact fun own => known (inv.own p inside sector own)
      rw [LogHeader.n_absorb_fresh fits known]
      rw [Finset.card_insert_of_notMem fresh] at budget ⊢
      omega

theorem ended (inv : ReserveInv es s) (p : Nat) (inside : s.pc p = .inOp) :
    ReserveInv (es ++ [(p, .endOp)])
      ⟨{ s.log with outstanding := s.log.outstanding - 1 },
        update (Sys.wakeup s.pc) p .idle⟩ := by
  have leaves : ∀ q, update (Sys.wakeup s.pc) p .idle q = .inOp ↔ q ≠ p ∧ s.pc q = .inOp :=
    GroupInv.leave_eq_iff (by decide) (by decide) (by decide)
  refine ⟨fun q insideQ => ?_, fun ops member nonempty => ?_⟩
  · obtain ⟨other, insideQ⟩ := (leaves q).mp insideQ
    rw [opWrites_other (Ne.symm other)]
    exact inv.own q insideQ
  · have absent : p ∉ ops := fun present => ((leaves p).mp ((member p).mp present)).1 rfl
    have old := inv.reserved (insert p ops) (fun q => by
      rw [Finset.mem_insert, member]
      refine Iff.trans (or_congr_right (leaves q)) ?_
      by_cases same : q = p
      · subst same
        exact ⟨fun _ => inside, fun _ => Or.inl rfl⟩
      · exact ⟨fun either => (either.resolve_left same).2, fun at' => Or.inr ⟨same, at'⟩⟩)
      (Finset.insert_nonempty _ _)
    rw [Finset.sum_insert absent] at old
    have kept : ∀ q ∈ ops, opWrites q (es ++ [(p, .endOp)]) = opWrites q es := by
      intro q present
      refine opWrites_other ?_ es
      rintro rfl
      exact absent present
    rw [Finset.sum_congr rfl fun q present => by rw [kept q present]]
    show s.log.lh.n + _ ≤ _
    omega

theorem keep (group : GroupInv es s) (inv : ReserveInv es s) {e : Event} (step : Sys.Step s e t)
    (within : Budgeted (MAXOPBLOCKS - 1) (es ++ [e])) : ReserveInv (es ++ [e]) t := by
  have after := group.keep step
  cases step with
  | slept p ready _ => exact inv.slept p ready
  | admitted p ready quiet room => exact admitted group inv p ready quiet room
  | logged p sector inside _ fits => exact inv.logged p sector inside fits within
  | lastEnded p _ _ _ => exact of_no_op (after.no_op_of_committing rfl)
  | ended p inside _ _ => exact inv.ended p inside
  | stepped p c next log at' moves =>
    exact of_no_op (after.no_op_of_committing (after.flag p next (update_self ..)))
  | finished p at' =>
    refine of_no_op fun q inside => ?_
    obtain ⟨_, inside⟩ := (GroupInv.leave_eq_iff (by decide) (by decide) (by decide) q).mp inside
    exact group.no_op_of_committing (group.flag p _ at') q inside

/-- **Every run in which each operation stays one below its budget keeps the reservation.** -/
theorem of_run {size nlog : Nat} {es : List Event} {s : Sys}
    (run : es.foldlM Sys.exec (Sys.init size nlog) = .ok s)
    (within : Budgeted (MAXOPBLOCKS - 1) es) : ReserveInv es s := by
  have both := run_invariant (fun es s => GroupInv es s ∧
      (Budgeted (MAXOPBLOCKS - 1) es → ReserveInv es s))
    ⟨GroupInv.initial size nlog, fun _ => of_no_op nofun⟩
    (fun es m e t inv done => ⟨inv.1.keep (Sys.step_of_exec done), fun within =>
      keep inv.1 (inv.2 within.of_snoc) (Sys.step_of_exec done) within⟩) es s run
  exact both.2 within

end ReserveInv

/-! ### The result -/

theorem run_ok_or_tooBig {size nlog : Nat} {es : List Event}
    (legal : es.foldlM Sys.exec (Sys.init size nlog) ≠ .error .notEnabled) :
    (∃ s, es.foldlM Sys.exec (Sys.init size nlog) = .ok s) ∨
      es.foldlM Sys.exec (Sys.init size nlog) = .error (.panic .tooBigATransaction) := by
  cases outcome : es.foldlM Sys.exec (Sys.init size nlog) with
  | ok s => exact Or.inl ⟨s, rfl⟩
  | error fault =>
    right
    cases fault with
    | notEnabled => exact absurd outcome legal
    | panic reason =>
      obtain ⟨before, e, after, m, _, run, stop⟩ := run_fault outcome
      obtain ⟨inside, ⟨sector, _, write⟩ | ⟨_, ended⟩⟩ := Sys.panic_of_exec stop
      · obtain ⟨p, other, same, tooBig⟩ := Sys.panic_is_tooBig (GroupInv.of_run run) stop
        rw [same] at inside stop
        simp only [Sys.exec, if_pos inside, tooBig] at stop
        cases stop
        rfl
      · have quiet := (GroupInv.of_run run).not_committing_of_op inside
        rw [Log.endOp_error ended] at quiet
        cases quiet

/-- **When the reservation suffices.** On an image with `nlog = LOGSIZE`, and for every interleaving
of the processes' steps: `log_write` does not panic with `too big a transaction` if and only if each
`log_write` of the run is issued while fewer than `LOGSIZE - 1` distinct sectors have been
log_written since the last commit. It is enough that no operation log_writes more than
`MAXOPBLOCKS - 1` distinct sectors. -/
theorem reservation_suffices_iff (size : Nat) (es : List Event)
    (legal : es.foldlM Sys.exec (Sys.init size LOGSIZE) ≠ .error .notEnabled) :
    (es.foldlM Sys.exec (Sys.init size LOGSIZE) ≠ .error (.panic .tooBigATransaction) ↔
      ∀ before p sector after, es = before ++ (p, .logWrite sector) :: after →
        (sinceCommit before).toFinset.card < LOGSIZE - 1) ∧
    (Budgeted (MAXOPBLOCKS - 1) es →
      es.foldlM Sys.exec (Sys.init size LOGSIZE) ≠ .error (.panic .tooBigATransaction)) := by
  refine ⟨⟨fun safe before p sector after split => ?_, fun few panics => ?_⟩,
    fun within panics => ?_⟩
  · obtain ⟨s, run⟩ := (run_ok_or_tooBig legal).resolve_right safe
    rw [split] at run
    obtain ⟨m, first, rest⟩ := run_append.mp run
    obtain ⟨t, step, _⟩ := run_cons.mp rest
    cases Sys.step_of_exec step with
    | logged _ _ inside room _ =>
      rw [(GroupInv.of_run first).card_sinceCommit inside]
      rw [Log.capacity, Sys.size_of_run first, min_eq_right (Nat.sub_le _ _)] at room
      exact room
  · obtain ⟨before, e, after, m, split, run, stop⟩ := run_fault panics
    obtain ⟨p, sector, rfl, tooBig⟩ := Sys.panic_is_tooBig (GroupInv.of_run run) stop
    have inside := (Sys.panic_of_exec stop).1
    have many := (tooBig_iff run inside sector).mp tooBig
    have := few before p sector after split
    omega
  · obtain ⟨before, e, after, m, split, run, stop⟩ := run_fault panics
    obtain ⟨p, sector, rfl, tooBig⟩ := Sys.panic_is_tooBig (GroupInv.of_run run) stop
    have inside := (Sys.panic_of_exec stop).1
    have budget : Budgeted (MAXOPBLOCKS - 1) before := by
      intro start member f present
      refine within start ?_ f (by rw [split]; exact List.mem_append_left _ present)
      rw [List.mem_inits] at member ⊢
      rw [split]
      exact member.trans (List.prefix_append _ _)
    obtain ⟨ops, member, _⟩ := (GroupInv.of_run run).counted
    have reserved := (ReserveInv.of_run run budget).reserved ops member ⟨p, (member p).mpr inside⟩
    have full := Log.write_eq_tooBig.mp tooBig
    rw [Log.capacity, Sys.size_of_run run, min_eq_right (Nat.sub_le _ _)] at full
    have : LOGSIZE = 30 := rfl
    omega

theorem reservation_suffices_overlapping :
    overlappingOps.foldlM Sys.exec (Sys.init 1024 LOGSIZE) ≠ .error .notEnabled ∧
      Budgeted (MAXOPBLOCKS - 1) overlappingOps ∧
      overlappingOps.foldlM Sys.exec (Sys.init 1024 LOGSIZE) ≠
        .error (.panic .tooBigATransaction) := by
  have run : ∃ s, overlappingOps.foldlM Sys.exec (Sys.init 1024 LOGSIZE) = .ok s := ⟨_, rfl⟩
  have legal : overlappingOps.foldlM Sys.exec (Sys.init 1024 LOGSIZE) ≠ .error .notEnabled := by
    obtain ⟨s, run⟩ := run
    rw [run]
    nofun
  have within : Budgeted (MAXOPBLOCKS - 1) overlappingOps := by decide
  exact ⟨legal, within, (reservation_suffices_iff 1024 overlappingOps legal).2 within⟩

/-- Three operations at once, each of which log_writes its full budget of ten distinct sectors. -/
def threeFullOps : List Event :=
  [(0, .beginOp), (1, .beginOp), (2, .beginOp)] ++
    (List.range 30).map fun i => (i / 10, .logWrite (UInt32.ofNat (100 + i)))

/-- **The reservation does not suffice**: every operation keeps to its budget, and the thirtieth
`log_write` panics. -/
theorem three_full_operations_panic :
    Budgeted MAXOPBLOCKS threeFullOps ∧
      threeFullOps.foldlM Sys.exec (Sys.init 1024 LOGSIZE) =
        .error (.panic .tooBigATransaction) := by
  exact ⟨by decide +kernel, rfl⟩

end Xv6
