/-
**The matcher of `grep`: `match`, `matchhere` and `matchstar` of `grep.c`.**

A pattern and a text are the bytes before their NULs. What a pattern means is said by the languages
of its parts: each character, with the `*` that may follow it, stands for a language, a pattern for
their product, and a text contains a match when the product can be found in it. `matchRe_iff` says
that the backtracking of the three functions decides just this.
-/

import Mathlib.Computability.Language

namespace Xv6.Grep

/-! ### The code -/

abbrev dot : UInt8 := '.'.toUInt8
abbrev star : UInt8 := '*'.toUInt8
abbrev caret : UInt8 := '^'.toUInt8
abbrev dollar : UInt8 := '$'.toUInt8

mutual

/-- `matchhere(re, text)`: `re` at the beginning of `text`. -/
def matchhere : List UInt8 → List UInt8 → Bool
  | [], _ => true
  | c :: re, text =>
    if re.head? = some star then matchstar c re.tail text
    else if c = dollar ∧ re = [] then text = []
    else
      match text with
      | [] => false
      | t :: text => if c = dot ∨ c = t then matchhere re text else false
termination_by re text => (re.length, text.length, 0)

/-- `matchstar(c, re, text)`: `c*re` at the beginning of `text`. -/
def matchstar (c : UInt8) (re text : List UInt8) : Bool :=
  if matchhere re text then true
  else
    match text with
    | [] => false
    | t :: text => if t = c ∨ c = dot then matchstar c re text else false
termination_by (re.length, text.length, 1)

end

/-- The loop of `match`. -/
def anywhere (re : List UInt8) : List UInt8 → Bool
  | [] => matchhere re []
  | t :: text => if matchhere re (t :: text) then true else anywhere re text

/-- The function `match` of `grep.c`. -/
def matchRe (re text : List UInt8) : Bool :=
  match re with
  | c :: rest => if c = caret then matchhere rest text else anywhere re text
  | [] => anywhere re text

/-! ### What a pattern means -/

/-- A character of a pattern, alone or with the `*` after it. -/
inductive Part where
  | one (c : UInt8)
  | many (c : UInt8)
deriving DecidableEq, Repr

/-- A pattern after its leading `^`: its parts, and whether a `$` stands at its end. -/
structure Pattern where
  parts : List Part
  eol : Bool

/-- The parts of a pattern: a `$` is special at the end alone, and a `*` after another character
alone. -/
def Pattern.parse : List UInt8 → Pattern
  | [] => ⟨[], false⟩
  | c :: re =>
    if re.head? = some star then ⟨.many c :: (parse re.tail).parts, (parse re.tail).eol⟩
    else if c = dollar ∧ re = [] then ⟨[], true⟩
    else ⟨.one c :: (parse re).parts, (parse re).eol⟩
termination_by re => re.length
decreasing_by all_goals simp; try omega

/-- The texts of one character that `c` matches: any if it is a dot, and `c` alone otherwise. -/
def oneOf (c : UInt8) : Language UInt8 := {w | ∃ t, w = [t] ∧ (c = dot ∨ c = t)}

def Part.language : Part → Language UInt8
  | .one c => oneOf c
  | .many c => KStar.kstar (oneOf c)

/-- The texts that begin with a match: any text may follow it, and none after a `$`. -/
def Pattern.language (p : Pattern) : Language UInt8 :=
  (p.parts.map Part.language).prod * if p.eol then 1 else ⊤

/-- **The text contains a match of the pattern**: at its beginning after a leading `^`, and anywhere
otherwise. -/
def Contains (re text : List UInt8) : Prop :=
  if re.head? = some caret then text ∈ (Pattern.parse re.tail).language
  else text ∈ ⊤ * (Pattern.parse re).language

/-! ### The functions decide it -/

theorem mem_oneOf_mul {c : UInt8} {l : Language UInt8} {text : List UInt8} :
    text ∈ oneOf c * l ↔ ∃ t rest, text = t :: rest ∧ (c = dot ∨ c = t) ∧ rest ∈ l := by
  rw [Language.mem_mul]
  constructor
  · rintro ⟨_, ⟨t, rfl, same⟩, rest, held, rfl⟩
    exact ⟨t, rest, rfl, same, held⟩
  · rintro ⟨t, rest, rfl, same, held⟩
    exact ⟨[t], ⟨t, rfl, same⟩, rest, held, rfl⟩

theorem mem_many_mul {c : UInt8} {l : Language UInt8} {text : List UInt8} :
    text ∈ KStar.kstar (oneOf c) * l ↔
      text ∈ l ∨ text ∈ oneOf c * (KStar.kstar (oneOf c) * l) := by
  conv_lhs => rw [← Language.one_add_self_mul_kstar_eq_kstar, add_mul, one_mul, mul_assoc]
  exact Language.mem_add _ _ _

theorem mem_top_mul {l : Language UInt8} {text : List UInt8} :
    text ∈ (⊤ : Language UInt8) * l ↔ ∃ i ≤ text.length, text.drop i ∈ l := by
  rw [Language.mem_mul]
  constructor
  · rintro ⟨before, -, here, held, rfl⟩
    exact ⟨before.length, by simp, by rwa [List.drop_left]⟩
  · rintro ⟨i, -, held⟩
    exact ⟨text.take i, trivial, text.drop i, held, List.take_append_drop i text⟩

theorem matchstar_iff {re : List UInt8} {l : Language UInt8}
    (here : ∀ text, matchhere re text = true ↔ text ∈ l) (c : UInt8) (text : List UInt8) :
    matchstar c re text = true ↔ text ∈ KStar.kstar (oneOf c) * l := by
  induction text with
  | nil =>
    rw [matchstar, mem_many_mul, mem_oneOf_mul, ← here]
    simp
  | cons t text ih =>
    rw [matchstar, mem_many_mul, mem_oneOf_mul, ← here]
    simp only [Bool.if_true_left, Bool.if_false_right, Bool.or_eq_true, Bool.and_eq_true,
      decide_eq_true_eq, List.cons.injEq, ih]
    refine or_congr_right ⟨fun ⟨same, more⟩ => ?_, ?_⟩
    · exact ⟨t, text, ⟨rfl, rfl⟩, same.symm.imp_right Eq.symm, more⟩
    · rintro ⟨_, _, ⟨rfl, rfl⟩, same, more⟩
      exact ⟨same.symm.imp_left Eq.symm, more⟩

theorem language_parse_nil : (Pattern.parse []).language = ⊤ := by
  simp [Pattern.parse, Pattern.language]

theorem language_parse_one {c : UInt8} {re : List UInt8} (plain : re.head? ≠ some star)
    (inner : ¬ (c = dollar ∧ re = [])) :
    (Pattern.parse (c :: re)).language = oneOf c * (Pattern.parse re).language := by
  rw [Pattern.parse, if_neg plain, if_neg inner, Pattern.language, List.map_cons, List.prod_cons,
    mul_assoc]
  rfl

theorem language_parse_many {c : UInt8} {re : List UInt8} (starred : re.head? = some star) :
    (Pattern.parse (c :: re)).language =
      KStar.kstar (oneOf c) * (Pattern.parse re.tail).language := by
  rw [Pattern.parse, if_pos starred, Pattern.language, List.map_cons, List.prod_cons, mul_assoc]
  rfl

/-- **`matchhere` decides whether a text begins with a match.** The induction is on the length of
the pattern, of which a `*` takes two characters; the loop over the text is that of
`matchstar_iff`. -/
theorem matchhere_iff (n : Nat) : ∀ (re : List UInt8), re.length ≤ n → ∀ text,
    (matchhere re text = true ↔ text ∈ (Pattern.parse re).language) := by
  induction n with
  | zero =>
    intro re short text
    obtain rfl := List.length_eq_zero_iff.mp (Nat.le_zero.mp short)
    exact ⟨fun _ => by rw [language_parse_nil]; trivial, fun _ => by rw [matchhere]⟩
  | succ n ih =>
    rintro (_ | ⟨c, re⟩) short text
    · exact ⟨fun _ => by rw [language_parse_nil]; trivial, fun _ => by rw [matchhere]⟩
    have shorter : re.length ≤ n := Nat.le_of_succ_le_succ short
    by_cases starred : re.head? = some star
    · have here := ih re.tail (by rw [List.length_tail]; omega)
      rw [matchhere.eq_def]
      dsimp only
      rw [if_pos starred, matchstar_iff here, language_parse_many starred]
    · by_cases last : c = dollar ∧ re = []
      · rw [matchhere.eq_def]
        dsimp only
        rw [if_neg starred, if_pos last, Pattern.parse, if_neg starred, if_pos last]
        simp [Pattern.language]
      · rw [matchhere.eq_def]
        dsimp only
        rw [if_neg starred, if_neg last, language_parse_one starred last, mem_oneOf_mul]
        cases text with
        | nil => simp
        | cons t text => simp [ih re shorter text]

theorem anywhere_iff (re text : List UInt8) :
    anywhere re text = true ↔ ∃ i ≤ text.length, matchhere re (text.drop i) = true := by
  induction text with
  | nil => simp [anywhere]
  | cons t text ih =>
    rw [anywhere, Bool.if_true_left, Bool.or_eq_true, decide_eq_true_eq, ih]
    constructor
    · rintro (found | ⟨i, inside, found⟩)
      · exact ⟨0, Nat.zero_le _, found⟩
      · exact ⟨i + 1, Nat.succ_le_succ inside, found⟩
    · rintro ⟨_ | i, inside, found⟩
      · exact .inl found
      · exact .inr ⟨i, Nat.le_of_succ_le_succ inside, found⟩

/-- **The matcher is correct**: `match` returns 1 just when the text contains a match of the
pattern. -/
theorem matchRe_iff (re text : List UInt8) : matchRe re text = true ↔ Contains re text := by
  have anywhere_iff_mem : anywhere re text = true ↔ text ∈ ⊤ * (Pattern.parse re).language := by
    rw [anywhere_iff, mem_top_mul]
    simp only [matchhere_iff re.length re le_rfl]
  cases re with
  | nil => exact anywhere_iff_mem
  | cons c rest =>
    rw [matchRe, Contains, List.head?_cons, List.tail_cons]
    by_cases anchored : c = caret
    · rw [if_pos anchored, if_pos (congrArg some anchored)]
      exact matchhere_iff rest.length rest le_rfl text
    · rw [if_neg anchored, if_neg (fun h => anchored (Option.some.inj h))]
      exact anywhere_iff_mem

end Xv6.Grep
