/-
**The lexer of the shell: `gettoken` and `peek` of `sh.c`.**

A line is its bytes before the NUL, and a `char *` into it is a position. `tokens` says what the
tokens of a line are, without positions: maximal runs of characters that are neither white space nor
symbols, and the operators. `At line s ts` ties the two together: from position `s` on the tokens of
the line are `ts`. What `peek` answers and what `gettoken` returns is told by `ts` alone.
-/

import Mathlib.Data.Bool.AllAny
import Mathlib.Data.List.TakeWhile
import Xv6.Str

namespace Xv6.Shell

/-! ### The line and its characters -/

def whitespace : List UInt8 := bytes [' ', '\t', '\r', '\n', '\x0b']

def symbols : List UInt8 := bytes ['<', '|', '>', '&', ';', '(', ')']

/-- `strchr(set, c)` finds `c`. The NUL at the end of `set` is not looked at. -/
def strchr (set : List UInt8) (c : UInt8) : Bool := set.contains c

def isSpace (c : UInt8) : Bool := strchr whitespace c

def isWord (c : UInt8) : Bool := !strchr whitespace c && !strchr symbols c

/-- `*s`, where a NUL follows the line. -/
def charAt (line : List UInt8) (s : Nat) : UInt8 := line.getD s 0

/-- `while(s < es && test(*s)) s++;`. -/
def skip (test : UInt8 → Bool) (line : List UInt8) (s : Nat) : Nat :=
  if s < line.length ∧ test (charAt line s) = true then skip test line (s + 1) else s
termination_by line.length - s

/-! ### `gettoken` and `peek` -/

/-- What `gettoken` returns: its value, `*q`, `*eq` and the new `*ps`. -/
structure Lexeme where
  ret : UInt8
  q : Nat
  eq : Nat
  next : Nat

/-- The `switch` of `gettoken`: the value to return and the end of the token. -/
def scan (line : List UInt8) (s : Nat) : UInt8 × Nat :=
  if charAt line s = 0 then (0, s)
  else if strchr (bytes ['|', '(', ')', ';', '&', '<']) (charAt line s) then (charAt line s, s + 1)
  else if charAt line s = '>'.toUInt8 then
    if charAt line (s + 1) = '>'.toUInt8 then ('+'.toUInt8, s + 2) else (charAt line s, s + 1)
  else ('a'.toUInt8, skip isWord line s)

def gettoken (line : List UInt8) (s : Nat) : Lexeme :=
  let q := skip isSpace line s
  let (ret, eq) := scan line q
  ⟨ret, q, eq, skip isSpace line eq⟩

/-- What `peek` returns and the new `*ps`. -/
structure Peek where
  found : Bool
  next : Nat

def peek (line : List UInt8) (s : Nat) (toks : List UInt8) : Peek :=
  let s := skip isSpace line s
  ⟨charAt line s != 0 && strchr toks (charAt line s), s⟩

/-! ### The tokens of a line -/

/-- The operators `<`, `>`, `>>`, `|`, `&`, `;`, `(` and `)`. -/
inductive Op where
  | lt | gt | gtgt | bar | amp | semi | lparen | rparen
deriving DecidableEq, Repr

inductive Token where
  | word (chars : List UInt8)
  | op (o : Op)
deriving DecidableEq, Repr

/-- The operator that a symbol alone is. -/
def Op.ofChar (c : UInt8) : Op :=
  if c = '<'.toUInt8 then .lt
  else if c = '|'.toUInt8 then .bar
  else if c = '>'.toUInt8 then .gt
  else if c = '&'.toUInt8 then .amp
  else if c = ';'.toUInt8 then .semi
  else if c = '('.toUInt8 then .lparen
  else .rparen

/-- The character an operator starts with. -/
def Op.first : Op → UInt8
  | .lt => '<'.toUInt8
  | .gt => '>'.toUInt8
  | .gtgt => '>'.toUInt8
  | .bar => '|'.toUInt8
  | .amp => '&'.toUInt8
  | .semi => ';'.toUInt8
  | .lparen => '('.toUInt8
  | .rparen => ')'.toUInt8

/-- The value `gettoken` has for a token. -/
def Token.code : Token → UInt8
  | .word _ => 'a'.toUInt8
  | .op .gtgt => '+'.toUInt8
  | .op o => o.first

/-- The next token is an operator that starts with one of `toks`. -/
def starts (toks : List UInt8) : List Token → Bool
  | .op o :: _ => toks.contains o.first
  | _ => false

/-- **The tokens of a line.** -/
def tokens : List UInt8 → List Token
  | [] => []
  | c :: rest =>
    if isSpace c then tokens rest
    else if isWord c then .word (c :: rest.takeWhile isWord) :: tokens (rest.dropWhile isWord)
    else if c = '>'.toUInt8 ∧ rest.head? = some '>'.toUInt8 then .op .gtgt :: tokens rest.tail
    else .op (Op.ofChar c) :: tokens rest
termination_by line => line.length
decreasing_by
  · exact Nat.lt_succ_self _
  · exact Nat.lt_succ_of_le (List.length_dropWhile_le _ _)
  · exact Nat.lt_succ_of_le (by rw [List.length_tail]; exact Nat.sub_le _ _)
  · exact Nat.lt_succ_self _

@[simp]
theorem tokens_nil : tokens [] = [] := by
  rw [tokens]

theorem tokens_space {c : UInt8} {rest : List UInt8} (space : isSpace c = true) :
    tokens (c :: rest) = tokens rest := by
  rw [tokens, if_pos space]

theorem not_isSpace_of_isWord {c : UInt8} (word : isWord c = true) : ¬ isSpace c = true := by
  intro space
  unfold isWord at word
  unfold isSpace at space
  rw [space] at word
  exact Bool.false_ne_true word

theorem tokens_word {c : UInt8} {rest : List UInt8} (word : isWord c = true) : tokens (c :: rest) =
    .word (c :: rest.takeWhile isWord) :: tokens (rest.dropWhile isWord) := by
  rw [tokens, if_neg (not_isSpace_of_isWord word), if_pos word]

theorem mem_symbols_iff {c : UInt8} : c ∈ symbols ↔ ¬ isSpace c = true ∧ ¬ isWord c = true := by
  have apart : ∀ c ∈ symbols, ¬ isSpace c = true := List.all_iff_forall_prop.1 (by decide)
  have found : strchr symbols c = true ↔ c ∈ symbols := List.contains_iff_mem
  constructor
  · intro symbol
    refine ⟨apart c symbol, fun word => ?_⟩
    unfold isWord at word
    rw [found.2 symbol, Bool.not_true, Bool.and_false] at word
    exact Bool.false_ne_true word
  · rintro ⟨notSpace, notWord⟩
    by_contra absent
    have notFound : strchr symbols c = false := Bool.eq_false_iff.2 fun is => absent (found.1 is)
    refine notWord ?_
    unfold isWord
    rw [notFound, show strchr whitespace c = false from Bool.eq_false_iff.2 notSpace]
    rfl

theorem tokens_gtgt {rest : List UInt8} :
    tokens ('>'.toUInt8 :: '>'.toUInt8 :: rest) = .op .gtgt :: tokens rest := by
  rw [tokens, if_neg (by decide), if_neg (by decide), if_pos ⟨rfl, rfl⟩]
  rfl

theorem tokens_op {c : UInt8} {rest : List UInt8} (symbol : c ∈ symbols)
    (single : ¬ (c = '>'.toUInt8 ∧ rest.head? = some '>'.toUInt8)) :
    tokens (c :: rest) = .op (Op.ofChar c) :: tokens rest := by
  obtain ⟨notSpace, notWord⟩ := mem_symbols_iff.1 symbol
  rw [tokens, if_neg notSpace, if_neg notWord, if_neg single]

theorem Op.first_ofChar {c : UInt8} (symbol : c ∈ symbols) : (Op.ofChar c).first = c :=
  List.all_iff_forall_prop.1 (by decide : symbols.all fun c => decide ((Op.ofChar c).first = c)) c
    symbol

theorem Token.code_ofChar {c : UInt8} (symbol : c ∈ symbols) : (Token.op (Op.ofChar c)).code = c :=
  List.all_iff_forall_prop.1
    (by decide : symbols.all fun c => decide ((Token.op (Op.ofChar c)).code = c)) c symbol

theorem tokens_dropWhile (line : List UInt8) : tokens (line.dropWhile isSpace) = tokens line := by
  induction line with
  | nil => rfl
  | cons c rest ih =>
    by_cases space : isSpace c = true
    · rw [List.dropWhile_cons_of_pos space, ih, tokens_space space]
    · rw [List.dropWhile_cons_of_neg space]

/-! ### Skipping -/

section

variable {line : List UInt8} {s : Nat} {test : UInt8 → Bool}

theorem charAt_of_drop {c : UInt8} {rest : List UInt8} (here : line.drop s = c :: rest) :
    s < line.length ∧ charAt line s = c := by
  have inside : s < line.length := by
    by_contra beyond
    rw [List.drop_eq_nil_of_le (Nat.le_of_not_lt beyond)] at here
    exact (List.cons_ne_nil _ _ here.symm).elim
  refine ⟨inside, ?_⟩
  rw [List.drop_eq_getElem_cons inside] at here
  unfold charAt
  rw [List.getD_eq_getElem?_getD, List.getElem?_eq_getElem inside, Option.getD_some]
  exact (List.cons.inj here).1

theorem drop_succ_of_drop {c : UInt8} {rest : List UInt8} (here : line.drop s = c :: rest) :
    line.drop (s + 1) = rest := by
  rw [← List.drop_drop, here]
  rfl

theorem skip_spec (test : UInt8 → Bool) {run : List UInt8} (inside : s ≤ line.length)
    (here : line.drop s = run) : skip test line s ≤ line.length ∧ s ≤ skip test line s ∧
      line.drop (skip test line s) = run.dropWhile test ∧
      (line.drop s).take (skip test line s - s) = run.takeWhile test := by
  induction run generalizing s with
  | nil =>
    have ends : ¬ s < line.length := by
      intro inside
      rw [List.drop_eq_getElem_cons inside] at here
      exact List.cons_ne_nil _ _ here
    rw [skip, if_neg fun both => ends both.1]
    refine ⟨inside, Nat.le_refl _, here, ?_⟩
    rw [here, List.take_nil]
    rfl
  | cons c rest ih =>
    obtain ⟨inside, char⟩ := charAt_of_drop here
    by_cases goes : test c = true
    · rw [skip, if_pos ⟨inside, by rw [char]; exact goes⟩]
      obtain ⟨ends, after, dropped, taken⟩ := ih (s := s + 1) inside (drop_succ_of_drop here)
      refine ⟨ends, Nat.le_of_succ_le after, ?_, ?_⟩
      · rw [List.dropWhile_cons_of_pos goes, dropped]
      · have more : skip test line (s + 1) - s = skip test line (s + 1) - (s + 1) + 1 := by omega
        rw [here, more, List.take_succ_cons, List.takeWhile_cons_of_pos goes, ← taken,
          drop_succ_of_drop here]
    · rw [skip, if_neg (by rw [char]; exact fun both => goes both.2)]
      refine ⟨Nat.le_of_lt inside, Nat.le_refl _, ?_, ?_⟩
      · rw [List.dropWhile_cons_of_neg goes, here]
      · rw [Nat.sub_self, List.take_zero, List.takeWhile_cons_of_neg goes]

end

/-! ### The tokens from a position on -/

/-- From `s` on, the tokens of `line` are `ts`. -/
structure At (line : List UInt8) (s : Nat) (ts : List Token) : Prop where
  inside : s ≤ line.length
  tokens : tokens (line.drop s) = ts

/-- The characters from `q` up to `eq` are the word `chars`, and it ends there. -/
structure WordAt (line : List UInt8) (q eq : Nat) (chars : List UInt8) : Prop where
  ordered : q ≤ eq
  inside : eq ≤ line.length
  reads : (line.drop q).take (eq - q) = chars
  inWord : ∀ c ∈ chars, isWord c = true
  ends : ∀ c, (line)[eq]? = some c → ¬ isWord c = true

section

variable {line : List UInt8} {s : Nat} {ts : List Token}

theorem At.start (line : List UInt8) : At line 0 (Shell.tokens line) :=
  ⟨Nat.zero_le _, by rw [List.drop_zero]⟩

theorem head_dropWhile (test : UInt8 → Bool) {run : List UInt8} {c : UInt8} {rest : List UInt8}
    (left : run.dropWhile test = c :: rest) : ¬ test c = true := by
  intro goes
  have heads := List.head?_dropWhile_not test run
  rw [left] at heads
  simp only [List.head?_cons] at heads
  rw [goes] at heads
  exact Bool.false_ne_true heads.symm

theorem At.skip (here : At line s ts) : At line (skip isSpace line s) ts ∧
    (ts = [] ∧ skip isSpace line s = line.length ∨
    ∃ c rest, line.drop (skip isSpace line s) = c :: rest ∧
      ¬ isSpace c = true ∧ Shell.tokens (c :: rest) = ts) := by
  obtain ⟨inside, _, dropped, _⟩ := skip_spec isSpace here.inside rfl
  have same : Shell.tokens (line.drop (Shell.skip isSpace line s)) = ts := by
    rw [dropped, tokens_dropWhile, here.tokens]
  refine ⟨⟨inside, same⟩, ?_⟩
  cases left : line.drop (Shell.skip isSpace line s) with
  | nil =>
    refine .inl ⟨?_, Nat.le_antisymm inside (List.drop_eq_nil_iff.1 left)⟩
    rw [← same, left, tokens_nil]
  | cons c rest =>
    refine .inr ⟨c, rest, rfl, head_dropWhile isSpace (dropped.symm.trans left), ?_⟩
    rw [← same, left]

/-! ### `peek` -/

theorem At.peek (here : At line s ts) (toks : List UInt8) : At line (peek line s toks).next ts :=
  here.skip.1

theorem At.peek_end (here : At line s ts) : (Shell.peek line s []).next = line.length ↔
    ts = [] := by
  constructor
  · intro ends
    have left := (here.peek []).tokens
    rw [ends, List.drop_length, tokens_nil] at left
    exact left.symm
  · intro none
    rcases here.skip.2 with ⟨_, ends⟩ | ⟨c, rest, _, notSpace, left⟩
    · exact ends
    · rw [none] at left
      by_cases word : isWord c = true
      · rw [tokens_word word] at left
        exact (List.cons_ne_nil _ _ left).elim
      · rw [Shell.tokens, if_neg notSpace, if_neg word] at left
        split at left <;> exact (List.cons_ne_nil _ _ left).elim

theorem charAt_length (line : List UInt8) : charAt line line.length = 0 := by
  unfold charAt
  rw [List.getD_eq_getElem?_getD, List.getElem?_eq_none (Nat.le_refl _), Option.getD_none]

theorem tokens_head {c : UInt8} (rest : List UInt8) (notSpace : ¬ isSpace c = true) :
    isWord c = true ∧ (∃ chars more, Shell.tokens (c :: rest) = .word chars :: more) ∨
      c ∈ symbols ∧ ∃ o more, Shell.tokens (c :: rest) = .op o :: more ∧ o.first = c := by
  by_cases word : isWord c = true
  · exact .inl ⟨word, _, _, tokens_word word⟩
  · have symbol := mem_symbols_iff.2 ⟨notSpace, word⟩
    refine .inr ⟨symbol, ?_⟩
    rw [Shell.tokens, if_neg notSpace, if_neg word]
    split
    · next double => exact ⟨_, _, rfl, double.1.symm⟩
    · exact ⟨_, _, rfl, Op.first_ofChar symbol⟩

theorem ne_zero_of_drop (plain : 0 ∉ line) {c : UInt8} {rest : List UInt8}
    (here : line.drop s = c :: rest) : c ≠ 0 := by
  rintro rfl
  exact plain (List.mem_of_mem_drop (here ▸ List.mem_cons_self))

theorem At.peek_found (plain : 0 ∉ line) (here : At line s ts) {toks : List UInt8}
    (sub : toks.all fun c => c ∈ symbols) : (Shell.peek line s toks).found = starts toks ts := by
  unfold Shell.peek
  simp only
  rcases here.skip.2 with ⟨rfl, ends⟩ | ⟨c, rest, left, notSpace, heads⟩
  · rw [ends, charAt_length]
    rfl
  · rw [(charAt_of_drop left).2, bne_iff_ne.2 (ne_zero_of_drop plain left), Bool.true_and]
    rcases tokens_head rest notSpace with ⟨word, chars, more, is⟩ | ⟨_, o, more, is, first⟩
    · rw [← heads, is]
      refine Bool.eq_false_iff.2 fun found => ?_
      exact (mem_symbols_iff.1 (List.all_iff_forall_prop.1 sub c (List.contains_iff_mem.1 found))).2
        word
    · rw [← heads, is, ← first]
      rfl

/-! ### `gettoken` -/

theorem At.gettoken_nil (here : At line s []) :
    (gettoken line s).ret = 0 ∧ At line (gettoken line s).next [] := by
  obtain ⟨there, ⟨_, ends⟩ | ⟨c, rest, _, notSpace, heads⟩⟩ := here.skip
  · have ended : scan line (Shell.skip isSpace line s) = (0, Shell.skip isSpace line s) := by
      unfold scan
      rw [if_pos (by rw [ends, charAt_length])]
    unfold gettoken
    simp only [ended]
    exact ⟨trivial, there.skip.1⟩
  · rcases tokens_head rest notSpace with ⟨_, _, _, is⟩ | ⟨_, _, _, is, _⟩
    all_goals
      rw [heads] at is
      exact (List.cons_ne_nil _ _ is.symm).elim

theorem ends_of_dropWhile {eq : Nat} {run : List UInt8}
    (left : line.drop eq = run.dropWhile isWord) (c : UInt8) (there : (line)[eq]? = some c) :
    ¬ isWord c = true := by
  have heads : (run.dropWhile isWord).head? = some c := by
    rw [← left, List.head?_drop, there]
  obtain ⟨rest, is⟩ := List.head?_eq_some_iff.1 heads
  exact head_dropWhile isWord is

theorem scan_word {c : UInt8} {rest : List UInt8} (here : line.drop s = c :: rest)
    (word : isWord c = true) (present : c ≠ 0) :
    (scan line s).1 = 'a'.toUInt8 ∧ At line (scan line s).2 (tokens (rest.dropWhile isWord)) ∧
      WordAt line s (scan line s).2 (c :: rest.takeWhile isWord) := by
  obtain ⟨inside, char⟩ := charAt_of_drop here
  have notSymbol : c ∉ symbols := fun symbol => (mem_symbols_iff.1 symbol).2 word
  have single : ∀ c ∈ bytes ['|', '(', ')', ';', '&', '<'], c ∈ symbols :=
    List.all_iff_forall_prop.1 (by decide)
  have absent : strchr (bytes ['|', '(', ')', ';', '&', '<']) c = false :=
    Bool.eq_false_iff.2 fun found => notSymbol (single c (List.contains_iff_mem.1 found))
  have scanned : scan line s = ('a'.toUInt8, skip isWord line s) := by
    unfold scan
    rw [char, if_neg present, absent, if_neg Bool.false_ne_true,
      if_neg (by rintro rfl; exact notSymbol (by decide))]
  rw [scanned]
  obtain ⟨ends, after, dropped, taken⟩ := skip_spec isWord (Nat.le_of_lt inside) here
  refine ⟨rfl, ⟨ends, ?_⟩, after, ends, ?_, ?_, ends_of_dropWhile dropped⟩
  · rw [dropped, List.dropWhile_cons_of_pos word]
  · rw [taken, List.takeWhile_cons_of_pos word]
  · intro d mem
    rw [← List.takeWhile_cons_of_pos word] at mem
    exact List.mem_takeWhile_imp mem

theorem scan_op {c : UInt8} {rest : List UInt8} (here : line.drop s = c :: rest)
    (symbol : c ∈ symbols) (present : c ≠ 0) : ∃ o more, tokens (c :: rest) = .op o :: more ∧
    (scan line s).1 = (Token.op o).code ∧
      At line (scan line s).2 more := by
  obtain ⟨inside, char⟩ := charAt_of_drop here
  have next := drop_succ_of_drop here
  unfold scan
  rw [char, if_neg present]
  by_cases greater : c = '>'.toUInt8
  · subst greater
    rw [if_neg (by decide), if_pos rfl]
    cases rest with
    | nil =>
      have ends : charAt line (s + 1) = 0 := by
        have last : s + 1 = line.length := Nat.le_antisymm inside (List.drop_eq_nil_iff.1 next)
        rw [last, charAt_length]
      rw [ends, if_neg (by decide), tokens_op symbol (by decide)]
      exact ⟨_, _, rfl, (Token.code_ofChar symbol).symm, inside, congrArg tokens next⟩
    | cons d rest =>
      obtain ⟨further, second⟩ := charAt_of_drop next
      rw [second]
      by_cases double : d = '>'.toUInt8
      · subst double
        rw [if_pos rfl, tokens_gtgt]
        exact ⟨_, _, rfl, rfl, further, congrArg tokens (drop_succ_of_drop next)⟩
      · have single : ¬ ('>'.toUInt8 = '>'.toUInt8 ∧ (d :: rest).head? = some '>'.toUInt8) :=
          fun both => double (Option.some.inj both.2)
        rw [if_neg double, tokens_op symbol single]
        exact ⟨_, _, rfl, (Token.code_ofChar symbol).symm, inside, congrArg tokens next⟩
  · have single :
        ∀ c ∈ symbols, c ≠ '>'.toUInt8 → strchr (bytes ['|', '(', ')', ';', '&', '<']) c = true :=
      List.all_iff_forall_prop.1 (by decide)
    rw [if_pos (single c symbol greater), tokens_op symbol fun both => greater both.1]
    exact ⟨_, _, rfl, (Token.code_ofChar symbol).symm, inside, congrArg tokens next⟩

theorem At.gettoken (plain : 0 ∉ line) {t : Token} (here : At line s (t :: ts)) :
    (gettoken line s).ret = t.code ∧ At line (gettoken line s).next ts ∧
      ∀ chars, t = .word chars → WordAt line (gettoken line s).q (gettoken line s).eq chars := by
  rcases here.skip.2 with ⟨none, _⟩ | ⟨c, rest, left, notSpace, heads⟩
  · exact (List.cons_ne_nil _ _ none).elim
  · have present := ne_zero_of_drop plain left
    unfold Shell.gettoken
    simp only
    by_cases word : isWord c = true
    · obtain ⟨ret, next, span⟩ := scan_word left word present
      rw [tokens_word word] at heads
      obtain ⟨rfl, rfl⟩ := List.cons.inj heads
      exact ⟨ret, next.skip.1, fun chars is => Token.word.inj is ▸ span⟩
    · obtain ⟨o, more, is, ret, next⟩ := scan_op left (mem_symbols_iff.2 ⟨notSpace, word⟩) present
      rw [heads] at is
      obtain ⟨rfl, rfl⟩ := List.cons.inj is
      exact ⟨ret, next.skip.1, fun chars absurdity => Token.noConfusion absurdity⟩

end

end Xv6.Shell
