/-
**Pre- and postconditions for programs that can fail.**

`Meets x good bad` says what a computation in `Except` does whichever way it ends: a returned value
is `good`, a fault is `bad`. `Meets.bind` is the rule for sequencing, `Meets.mono` the rule of
consequence, `Meets.foldlM` the rule for loops; a `bad` that is never true is total correctness.
-/

import Mathlib.Tactic.Common

namespace Xv6.Lib

variable {φ α β σ ε : Type}

/-- A value returned by `x` is `good`, a fault of `x` is `bad`. -/
def Meets (x : Except φ α) (good : α → Prop) (bad : φ → Prop) : Prop :=
  match x with
  | .ok a => good a
  | .error fault => bad fault

namespace Meets

variable {x : Except φ α} {good good' : α → Prop} {bad bad' : φ → Prop}

theorem of_ok {a : α} (meets : Meets x good bad) (ok : x = .ok a) : good a := by
  subst ok
  exact meets

theorem of_error {fault : φ} (meets : Meets x good bad) (error : x = .error fault) : bad fault := by
  subst error
  exact meets

theorem intro (ok : ∀ a, x = .ok a → good a) (error : ∀ fault, x = .error fault → bad fault) :
    Meets x good bad := by
  cases x with
  | ok a => exact ok a rfl
  | error fault => exact error fault rfl

theorem any (x : Except φ α) : Meets x (fun _ => True) fun _ => True :=
  intro (fun _ _ => trivial) fun _ _ => trivial

theorem mono (meets : Meets x good bad) (better : ∀ a, good a → good' a)
    (worse : ∀ fault, bad fault → bad' fault) : Meets x good' bad' :=
  intro (fun a ok => better a (meets.of_ok ok)) fun fault error =>
    worse fault (meets.of_error error)

theorem imp (meets : Meets x good bad) (better : ∀ a, good a → good' a) :
    Meets x good' fun _ => True :=
  meets.mono better fun _ _ => trivial

theorem weaken (meets : Meets x good bad) : Meets x good fun _ => True :=
  meets.imp fun _ holds => holds

theorem both (meets : Meets x good bad) (other : Meets x good' bad') :
    Meets x (fun a => good a ∧ good' a) fun fault => bad fault ∧ bad' fault :=
  intro (fun _ ok => ⟨meets.of_ok ok, other.of_ok ok⟩) fun _ error =>
    ⟨meets.of_error error, other.of_error error⟩

theorem faults (meets : Meets x good bad) (other : Meets x good' bad') : Meets x good bad' :=
  intro (fun _ ok => meets.of_ok ok) fun _ error => other.of_error error

theorem bind {f : α → Except φ β} {last : β → Prop} (first : Meets x good bad)
    (next : ∀ a, good a → Meets (f a) last bad) : Meets (x >>= f) last bad := by
  cases x with
  | ok a => exact next a first
  | error fault => exact first

theorem ite_bind {c : Prop} [Decidable c] {y : Except φ α} {f : α → Except φ β} {last : β → Prop}
    (first : Meets (if c then x else y) good bad) (next : ∀ a, good a → Meets (f a) last bad) :
    Meets (if c then x >>= f else y >>= f) last bad := by
  by_cases holds : c
  · rw [if_pos holds] at first ⊢
    exact first.bind next
  · rw [if_neg holds] at first ⊢
    exact first.bind next

/-- **Total correctness**: where no fault is possible a value is returned. -/
theorem exists_ok (meets : Meets x good fun _ => False) : ∃ a, x = .ok a ∧ good a := by
  cases x with
  | ok a => exact ⟨a, rfl, meets⟩
  | error fault => exact meets.elim

/-- **Loops**: an invariant of the elements done and the state. -/
theorem foldlM {step : σ → ε → Except φ σ} (Inv : List ε → σ → Prop) {s : σ} (start : Inv [] s) :
    ∀ {es : List ε}, (∀ done e rest m, es = done ++ e :: rest → Inv done m →
      Meets (step m e) (Inv (done ++ [e])) bad) → Meets (es.foldlM step s) (Inv es) bad := by
  intro es
  suffices general : ∀ (rest done : List ε) (m : σ), es = done ++ rest → Inv done m →
      (∀ done e rest m, es = done ++ e :: rest → Inv done m →
        Meets (step m e) (Inv (done ++ [e])) bad) → Meets (rest.foldlM step m) (Inv es) bad from
    general es [] s rfl start
  intro rest
  induction rest with
  | nil =>
    intro done m split inv _
    rw [List.append_nil] at split
    subst split
    exact inv
  | cons e rest ih =>
    intro done m split inv keep
    rw [List.foldlM_cons]
    refine (keep done e rest m split inv).bind fun t after => ?_
    exact ih (done ++ [e]) t (by rw [split, List.append_assoc, List.singleton_append]) after keep

end Meets

end Xv6.Lib
