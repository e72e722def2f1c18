/-
**Runs of a fallible step function.**

A step `step: σ → ε → Except φ σ` takes a state and an event and either gives the next state or
stops with a fault; a run over a list of events is `List.foldlM step`. `run_invariant` is the
induction every safety result uses.

`Always step P s es` says that every state a run passes through has `P`, `EachStep step Q s es` that
every step it completes was taken where `Q` holds. Where a step keeps an invariant exactly when `Q`
holds, the two are the same.
-/

import Mathlib.Data.List.Induction
import Mathlib.Tactic.Common

namespace Xv6.Lib

section Bind

variable {φ α β : Type}

/-- A sequence succeeds exactly when its first part does and the rest does on its value. -/
theorem bind_eq_ok {x : Except φ α} {f : α → Except φ β} {b : β} :
    (x >>= f) = .ok b ↔ ∃ a, x = .ok a ∧ f a = .ok b := by
  cases x with
  | error fault =>
    constructor
    · intro absurdity
      cases absurdity
    · rintro ⟨_, absurdity, _⟩
      cases absurdity
  | ok a =>
    constructor
    · intro success
      exact ⟨a, rfl, success⟩
    · rintro ⟨_, same, success⟩
      cases same
      exact success

theorem bind_eq_error {x : Except φ α} {f : α → Except φ β} {fault : φ} :
    (x >>= f) = .error fault ↔ x = .error fault ∨ ∃ a, x = .ok a ∧ f a = .error fault := by
  cases x with
  | error other =>
    constructor
    · intro failure
      left
      cases failure
      rfl
    · rintro (failure | ⟨_, absurdity, _⟩)
      · cases failure
        rfl
      · cases absurdity
  | ok a =>
    constructor
    · intro failure
      exact Or.inr ⟨a, rfl, failure⟩
    · rintro (absurdity | ⟨_, same, failure⟩)
      · cases absurdity
      · cases same
        exact failure

@[simp] theorem ok_bind (a : α) (f : α → Except φ β) : (Except.ok a >>= f) = f a := rfl

@[simp] theorem error_bind (fault : φ) (f : α → Except φ β) :
    ((Except.error fault : Except φ α) >>= f) = .error fault := rfl

end Bind

section Run

variable {σ ε φ : Type} {step : σ → ε → Except φ σ}

theorem run_cons {s t : σ} {e : ε} {es : List ε} :
    (e :: es).foldlM step s = .ok t ↔ ∃ m, step s e = .ok m ∧ es.foldlM step m = .ok t := by
  rw [List.foldlM_cons]
  exact bind_eq_ok

theorem run_append {s t : σ} {es fs : List ε} :
    (es ++ fs).foldlM step s = .ok t ↔
      ∃ m, es.foldlM step s = .ok m ∧ fs.foldlM step m = .ok t := by
  rw [List.foldlM_append]
  exact bind_eq_ok

theorem run_snoc {s t : σ} {es : List ε} {e : ε} :
    (es ++ [e]).foldlM step s = .ok t ↔ ∃ m, es.foldlM step s = .ok m ∧ step m e = .ok t := by
  rw [run_append]
  constructor
  · rintro ⟨m, before, last⟩
    obtain ⟨u, taken, rest⟩ := run_cons.mp last
    cases rest
    exact ⟨m, before, taken⟩
  · rintro ⟨m, before, last⟩
    exact ⟨m, before, run_cons.mpr ⟨t, last, rfl⟩⟩

/-- **The invariant rule.** `Inv` may speak about the events so far. -/
theorem run_invariant (Inv : List ε → σ → Prop) {s : σ} (start : Inv [] s)
    (keep : ∀ es m e t, Inv es m → step m e = .ok t → Inv (es ++ [e]) t) :
    ∀ (es : List ε) (t : σ), es.foldlM step s = .ok t → Inv es t := by
  intro es
  induction es using List.reverseRecOn with
  | nil =>
    intro t done
    cases done
    exact start
  | append_singleton es e ih =>
    intro t done
    obtain ⟨m, before, last⟩ := run_snoc.mp done
    exact keep es m e t (ih m before) last

/-- **A faulty run stops at one step**: the events before it succeed, that step faults. -/
theorem run_fault {s : σ} {fault : φ} :
    ∀ {es : List ε}, es.foldlM step s = .error fault →
      ∃ before e after m, es = before ++ e :: after ∧ before.foldlM step s = .ok m ∧
        step m e = .error fault := by
  intro es
  induction es using List.reverseRecOn with
  | nil =>
    intro absurdity
    cases absurdity
  | append_singleton es e ih =>
    intro failure
    rw [List.foldlM_append] at failure
    rcases bind_eq_error.mp failure with early | ⟨m, before, last⟩
    · obtain ⟨before, first, after, m, split, run, stop⟩ := ih early
      exact ⟨before, first, after ++ [e], m, by rw [split]; simp, run, stop⟩
    · rw [List.foldlM_cons] at last
      rcases bind_eq_error.mp last with stop | ⟨t, _, absurdity⟩
      · exact ⟨es, e, [], m, rfl, before, stop⟩
      · cases absurdity

/-! ### Every state, every step -/

/-- Every state that the run over `es` passes through has `P`. -/
def Always (step : σ → ε → Except φ σ) (P : σ → Prop) (s : σ) (es : List ε) : Prop :=
  ∀ before after m, es = before ++ after → before.foldlM step s = .ok m → P m

/-- Every step that the run over `es` completes is taken in a state where `Q` allows it. -/
def EachStep (step : σ → ε → Except φ σ) (Q : σ → ε → Prop) (s : σ) (es : List ε) : Prop :=
  ∀ before e after m t, es = before ++ e :: after → before.foldlM step s = .ok m →
    step m e = .ok t → Q m e

variable {P Inv : σ → Prop} {Q : σ → ε → Prop} {s : σ} {e : ε} {es : List ε}

theorem always_nil : Always step P s [] ↔ P s := by
  constructor
  · intro always
    exact always [] [] s rfl rfl
  · intro here before after m split run
    obtain ⟨rfl, rfl⟩ := List.append_eq_nil_iff.mp split.symm
    cases run
    exact here

theorem always_cons : Always step P s (e :: es) ↔
    P s ∧ ∀ t, step s e = .ok t → Always step P t es := by
  constructor
  · intro always
    refine ⟨always [] (e :: es) s rfl rfl, ?_⟩
    intro t taken before after m split run
    exact always (e :: before) after m (by rw [split]; rfl) (run_cons.mpr ⟨t, taken, run⟩)
  · rintro ⟨here, later⟩ before after m split run
    cases before with
    | nil =>
      cases run
      exact here
    | cons first before =>
      obtain ⟨rfl, rest⟩ := List.cons.inj split
      obtain ⟨t, taken, run⟩ := run_cons.mp run
      exact later t taken before after m rest run

theorem eachStep_nil : EachStep step Q s [] := by
  intro before e after m t split
  exact absurd split.symm (List.append_ne_nil_of_right_ne_nil _ (List.cons_ne_nil _ _))

theorem eachStep_cons : EachStep step Q s (e :: es) ↔
    ∀ t, step s e = .ok t → Q s e ∧ EachStep step Q t es := by
  constructor
  · intro each t taken
    refine ⟨each [] e es s t rfl rfl taken, ?_⟩
    intro before f after m u split run next
    exact each (e :: before) f after m u (by rw [split]; rfl) (run_cons.mpr ⟨t, taken, run⟩) next
  · intro each before f after m u split run next
    cases before with
    | nil =>
      cases split
      cases run
      exact (each u next).1
    | cons first before =>
      obtain ⟨rfl, rest⟩ := List.cons.inj split
      obtain ⟨t, taken, run⟩ := run_cons.mp run
      exact (each t taken).2 before f after m u rest run next

theorem run_append_error {t : σ} {fs : List ε} {fault : φ} (first : es.foldlM step s = .ok t)
    (last : fs.foldlM step t = .error fault) : (es ++ fs).foldlM step s = .error fault := by
  rw [List.foldlM_append, first, ok_bind, last]

/-- The computation returns a value with `P`. -/
def endsIn {α : Type} (x : Except φ α) (P : α → Bool) : Bool :=
  match x with
  | .ok a => P a
  | .error _ => false

theorem exists_of_endsIn {α : Type} {x : Except φ α} {P : α → Bool} (ends : endsIn x P = true) :
    ∃ a, x = .ok a ∧ P a = true := by
  cases x with
  | ok a => exact ⟨a, rfl, ends⟩
  | error fault => cases ends

/-- The computation stops with the fault. -/
def failsWith {α : Type} [DecidableEq φ] (x : Except φ α) (fault : φ) : Bool :=
  match x with
  | .ok _ => false
  | .error fault' => decide (fault' = fault)

theorem eq_error_of_failsWith {α : Type} [DecidableEq φ] {x : Except φ α} {fault : φ}
    (fails : failsWith x fault = true) : x = .error fault := by
  cases x with
  | ok a => cases fails
  | error fault' => rw [of_decide_eq_true fails]

/-- A run is checked step by step. -/
def checkEach (step : σ → ε → Except φ σ) (q : σ → ε → Bool) : σ → List ε → Bool
  | _, [] => true
  | s, e :: es => q s e && match step s e with
    | .ok t => checkEach step q t es
    | .error _ => true

theorem eachStep_of_check {q : σ → ε → Bool} (sound : ∀ m e, q m e = true → Q m e) :
    ∀ {es : List ε} {s : σ}, checkEach step q s es = true → EachStep step Q s es
  | [], _, _ => eachStep_nil
  | e :: es, s, checked => by
    obtain ⟨here, rest⟩ := (Bool.and_eq_true _ _).mp checked
    refine eachStep_cons.mpr fun t taken => ⟨sound s e here, eachStep_of_check sound ?_⟩
    rw [taken] at rest
    exact rest

theorem EachStep.and {Q' : σ → ε → Prop} (each : EachStep step Q s es)
    (each' : EachStep step Q' s es) : EachStep step (fun s e => Q s e ∧ Q' s e) s es :=
  fun before e after m t split run taken =>
    ⟨each before e after m t split run taken, each' before e after m t split run taken⟩

/-- **Exact invariants**: if a step from an `Inv` state, where `A` is assumed of it, leads to an
`Inv` state when `Q` allows it, and out of `P` when not, then a run stays in `P` exactly when `Q`
allows each of its steps. -/
theorem always_iff_eachStep_of {A : σ → ε → Prop} (holds : ∀ s, Inv s → P s)
    (exact' : ∀ s e t, Inv s → A s e → step s e = .ok t → (Q s e → Inv t) ∧ (¬ Q s e → ¬ P t))
    (start : Inv s) (assumed : EachStep step A s es) :
    Always step P s es ↔ EachStep step Q s es := by
  induction es generalizing s with
  | nil =>
    rw [always_nil]
    exact iff_of_true (holds s start) eachStep_nil
  | cons e es ih =>
    rw [always_cons, eachStep_cons, and_iff_right (holds s start)]
    refine forall_congr' fun t => forall_congr' fun taken => ?_
    obtain ⟨here, later⟩ := eachStep_cons.mp assumed t taken
    obtain ⟨keeps, breaks⟩ := exact' s e t start here taken
    by_cases allowed : Q s e
    · rw [ih (keeps allowed) later, and_iff_right allowed]
    · refine iff_of_false (fun always => breaks allowed ?_) fun both => allowed both.1
      exact always [] es t rfl rfl

theorem always_iff_eachStep (holds : ∀ s, Inv s → P s)
    (exact' : ∀ s e t, Inv s → step s e = .ok t → (Q s e → Inv t) ∧ (¬ Q s e → ¬ P t))
    (start : Inv s) : Always step P s es ↔ EachStep step Q s es :=
  always_iff_eachStep_of (A := fun _ _ => True) holds (fun s e t inv _ => exact' s e t inv) start
    fun _ _ _ _ _ _ _ _ => trivial

theorem EachStep.always (each : EachStep step Q s es) (holds : ∀ s, Inv s → P s)
    (keeps : ∀ s e t, Inv s → step s e = .ok t → Q s e → Inv t) (start : Inv s) :
    Always step P s es := by
  induction es generalizing s with
  | nil => exact always_nil.mpr (holds s start)
  | cons e es ih =>
    refine always_cons.mpr ⟨holds s start, fun t taken => ?_⟩
    obtain ⟨allowed, rest⟩ := eachStep_cons.mp each t taken
    exact ih rest (keeps s e t start taken allowed)

/-- A run whose steps are all allowed faults only as a step from an `Inv` state can. -/
theorem EachStep.fault {fault : φ} (each : EachStep step Q s es)
    (keeps : ∀ s e t, Inv s → step s e = .ok t → Q s e → Inv t) (start : Inv s)
    (failed : es.foldlM step s = .error fault) : ∃ m e, Inv m ∧ step m e = .error fault := by
  induction es generalizing s with
  | nil => cases failed
  | cons e es ih =>
    rw [List.foldlM_cons] at failed
    rcases bind_eq_error.mp failed with now | ⟨t, taken, later⟩
    · exact ⟨s, e, start, now⟩
    · obtain ⟨allowed, rest⟩ := eachStep_cons.mp each t taken
      exact ih rest (keeps s e t start taken allowed) later

end Run

end Xv6.Lib
