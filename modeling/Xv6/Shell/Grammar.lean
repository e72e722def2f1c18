/-
**The grammar of the shell, and the loops of its parser.**

`Line`, `Pipe` and `Exec` are the rules

    line  ::=  pipe '&'* [';' line]
    pipe  ::=  exec ['|' pipe]
    exec  ::=  '(' line ')' redir*  |  redir* (word redir*)*
    redir ::=  ('<' | '>' | '>>') word

as derivations from tokens, each with the tree that it denotes. `Accepts` says what a call returns
and which tokens it leaves. A loop takes as many tokens as it can; it is described by what one round
does.
-/

import Mathlib.Data.List.Forall2
import Mathlib.Logic.Function.Iterate
import Xv6.Lib.Run
import Xv6.Shell.Parser

namespace Xv6.Shell

open Lib

/-! ### The grammar -/

/-- A command with its words as strings. -/
abbrev Tree := Cmd (List UInt8)

/-- `<`, `>` and `>>`. -/
inductive Direction where
  | input | output | append
deriving DecidableEq, Repr

namespace Direction

def op : Direction → Op
  | input => .lt
  | output => .gt
  | append => .gtgt

def mode : Direction → BitVec 32
  | input => O_RDONLY
  | output | append => O_WRONLY ||| O_CREATE

def fd : Direction → Nat
  | input => 0
  | output | append => 1

end Direction

/-- `redir ::= ('<' | '>' | '>>') word`. -/
structure Redir where
  dir : Direction
  file : List UInt8

def Redir.tokens (r : Redir) : List Token := [.op r.dir.op, .word r.file]

/-- A redirection is put around the command built so far. -/
def Redir.wrap (t : Tree) (r : Redir) : Tree := .redir t r.file r.dir.mode r.dir.fd

/-- `word redir*`. -/
structure Arg where
  word : List UInt8
  redirs : List Redir

def Arg.tokens (a : Arg) : List Token := .word a.word :: a.redirs.flatMap Redir.tokens

/-- The command built so far, with the argument and its redirections. -/
def Arg.extend (t : Tree) (a : Arg) : Tree := a.redirs.foldl Redir.wrap (t.addArg a.word)

mutual

/-- `line ::= pipe '&'* [';' line]`. -/
inductive Line : List Token → Tree → Prop where
  | last {used : List Token} {t : Tree} (k : Nat) (pipe : Pipe used t) :
      Line (used ++ List.replicate k (.op .amp)) (Cmd.back^[k] t)
  | seq {used right : List Token} {t u : Tree} (k : Nat) (pipe : Pipe used t)
    (line : Line right u) :
      Line (used ++ List.replicate k (.op .amp) ++ .op .semi :: right) (.list (Cmd.back^[k] t) u)

/-- `pipe ::= exec ['|' pipe]`. -/
inductive Pipe : List Token → Tree → Prop where
  | last {used : List Token} {t : Tree} (exec : Exec used t) : Pipe used t
  | seq {used right : List Token} {t u : Tree} (exec : Exec used t) (pipe : Pipe right u) :
      Pipe (used ++ .op .bar :: right) (.pipe t u)

/-- `exec ::= '(' line ')' redir* | redir* (word redir*)*`, with fewer than `MAXARGS` words. -/
inductive Exec : List Token → Tree → Prop where
  | block {used : List Token} {t : Tree} (rs : List Redir) (line : Line used t) :
      Exec (.op .lparen :: used ++ .op .rparen :: rs.flatMap Redir.tokens) (rs.foldl Redir.wrap t)
  | simple (rs : List Redir) (args : List Arg) (few : args.length < MAXARGS) :
      Exec (rs.flatMap Redir.tokens ++ args.flatMap Arg.tokens)
        ((rs ++ args.flatMap Arg.redirs).foldl Redir.wrap (.exec (args.map Arg.word)))

end

/-! ### What a call returns -/

/-- The words of `cmd` stand in the line, and `t` has the characters they are. -/
inductive Spells (line : List UInt8) : Cmd Span → Tree → Prop where
  | exec {argv : List Span} {words : List (List UInt8)}
      (all : List.Forall₂ (fun span chars => WordAt line span.q span.eq chars) argv words) :
      Spells line (.exec argv) (.exec words)
  | redir {cmd : Cmd Span} {t : Tree} {file : Span} {chars : List UInt8}
    (mode : BitVec 32) (fd : Nat)
      (inner : Spells line cmd t) (word : WordAt line file.q file.eq chars) :
      Spells line (.redir cmd file mode fd) (.redir t chars mode fd)
  | pipe {left right : Cmd Span} {t u : Tree} (first : Spells line left t)
    (second : Spells line right u) :
      Spells line (.pipe left right) (.pipe t u)
  | list {left right : Cmd Span} {t u : Tree} (first : Spells line left t)
    (second : Spells line right u) :
      Spells line (.list left right) (.list t u)
  | back {cmd : Cmd Span} {t : Tree} (inner : Spells line cmd t) : Spells line (.back cmd) (.back t)

/-- The call returns the tree `t`, with the tokens `more` left on the line. -/
def Accepts (line : List UInt8) (r : Except Stop (Cmd Span × Nat)) (t : Tree) (more : List Token) :
    Prop :=
  ∃ cmd s, r = .ok (cmd, s) ∧ At line s more ∧ Spells line cmd t

/-- The call panics. -/
def Refuses (r : Except Stop (Cmd Span × Nat)) : Prop := ∃ message, r = .error (.panic message)

theorem Spells.addArg {line : List UInt8} {cmd : Cmd Span} {t : Tree} (spells : Spells line cmd t)
    {q eq : Nat} {chars : List UInt8} (word : WordAt line q eq chars) :
    Spells line (cmd.addArg ⟨q, eq⟩) (t.addArg chars) := by
  induction spells with
  | exec all => exact .exec (List.rel_append all (.cons word .nil))
  | redir mode fd _ file ih => exact .redir mode fd ih file
  | pipe first second => exact .pipe first second
  | list first second => exact .list first second
  | back inner => exact .back inner

theorem Spells.redircmd {line : List UInt8} {cmd : Cmd Span} {t : Tree} (spells : Spells line cmd t)
    {q eq : Nat} {chars : List UInt8} (word : WordAt line q eq chars) (d : Direction) :
    Spells line (redircmd (Token.op d.op).code cmd ⟨q, eq⟩) (Redir.wrap t ⟨d, chars⟩) := by
  cases d <;> exact .redir _ _ spells word

theorem exists_of_starts {toks : List UInt8} {ts : List Token} (found : starts toks ts = true) :
    ∃ o rest, ts = .op o :: rest ∧ toks.contains o.first = true := by
  match ts, found with
  | .op o :: rest, found => exact ⟨o, rest, rfl, found⟩

/-- The tokens that come after a derivation: none, or one that starts with a character of `toks`. -/
def Follow (toks : List UInt8) (more : List Token) : Prop := more = [] ∨ starts toks more = true

theorem Follow.mono {toks wider : List UInt8} {more : List Token} (follow : Follow toks more)
    (sub : toks.all fun c => c ∈ wider) : Follow wider more := by
  refine follow.imp_right fun found => ?_
  obtain ⟨o, rest, rfl, mem⟩ := exists_of_starts found
  exact List.contains_iff_mem.2 (List.all_iff_forall_prop.1 sub _ (List.contains_iff_mem.1 mem))

theorem Follow.not_starts {toks other : List UInt8} {more : List Token} (follow : Follow toks more)
    (apart : toks.all fun c => c ∉ other) : starts other more = false := by
  rcases follow with rfl | found
  · rfl
  · obtain ⟨o, rest, rfl, mem⟩ := exists_of_starts found
    refine Bool.eq_false_iff.2 fun both => ?_
    exact List.all_iff_forall_prop.1 apart _ (List.contains_iff_mem.1 mem)
      (List.contains_iff_mem.1 both)

theorem starts_redir {o : Op} : (bytes ['<', '>']).contains o.first = true ↔ ∃ d :
    Direction, o = d.op := by
  constructor
  · intro found
    cases o
    case lt => exact ⟨.input, rfl⟩
    case gt => exact ⟨.output, rfl⟩
    case gtgt => exact ⟨.append, rfl⟩
    all_goals exact absurd found (by decide)
  · rintro ⟨d, rfl⟩
    cases d <;> decide

theorem code_op_ne (o : Op) : (Token.op o).code ≠ 'a'.toUInt8 ∧ (Token.op o).code ≠ 0 := by
  cases o <;> decide

theorem starts_args {toks : List UInt8} {args : List Arg} {more : List Token}
    (stop : starts toks more = false) : starts toks (args.flatMap Arg.tokens ++ more) = false := by
  cases args with
  | nil => exact stop
  | cons a args => rfl

theorem length_le_flatMap_tokens (rs : List Redir) :
    rs.length ≤ (rs.flatMap Redir.tokens).length := by
  induction rs with
  | nil => exact Nat.le_refl _
  | cons r rs ih =>
    rw [List.flatMap_cons, List.length_append, List.length_cons]
    exact Nat.le_trans (Nat.succ_le_succ ih) (by rw [Redir.tokens, List.length_cons]; omega)

section

variable {line : List UInt8} (plain : 0 ∉ line)
include plain

/-! ### The loops -/

theorem parseredirs_stop {fuel : Nat} {cmd : Cmd Span} {t : Tree} {s : Nat} {ts : List Token}
    (here : At line s ts) (spells : Spells line cmd t)
    (stop : starts (bytes ['<', '>']) ts = false) :
    Accepts line (parseredirs line (fuel + 1) cmd s) t ts := by
  refine ⟨cmd, _, ?_, here.peek (bytes ['<', '>']), spells⟩
  unfold parseredirs
  simp only
  rw [here.peek_found plain (by decide), stop, if_neg Bool.false_ne_true]

theorem parseredirs_cons (fuel : Nat) (r : Redir) {cmd : Cmd Span} {t : Tree} {s : Nat}
    {more : List Token} (here : At line s (r.tokens ++ more)) (spells : Spells line cmd t) :
    ∃ cmd' s', parseredirs line (fuel + 1) cmd s = parseredirs line fuel cmd' s' ∧ At line s' more ∧
      Spells line cmd' (r.wrap t) := by
  have found : starts (bytes ['<', '>']) (r.tokens ++ more) = true := starts_redir.2 ⟨r.dir, rfl⟩
  obtain ⟨ret, there, _⟩ := (here.peek (bytes ['<', '>'])).gettoken plain
  obtain ⟨isWord, next, word⟩ := there.gettoken plain
  refine ⟨_, _, ?_, next, spells.redircmd (word _ rfl) r.dir⟩
  conv_lhs => unfold parseredirs
  simp only
  rw [here.peek_found plain (by decide), found, if_pos rfl, ret, isWord]
  exact if_neg fun differs => differs rfl

theorem parseredirs_refuses {fuel : Nat} {cmd : Cmd Span} {s : Nat} {d : Direction}
    {more : List Token} (here : At line s (.op d.op :: more))
    (missing : ∀ chars rest, more ≠ .word chars :: rest) :
    Refuses (parseredirs line (fuel + 1) cmd s) := by
  have found : starts (bytes ['<', '>']) (.op d.op :: more) = true := starts_redir.2 ⟨d, rfl⟩
  obtain ⟨_, there, _⟩ := (here.peek (bytes ['<', '>'])).gettoken plain
  refine ⟨"missing file for redirection", ?_⟩
  unfold parseredirs
  simp only
  rw [here.peek_found plain (by decide), found, if_pos rfl]
  refine if_pos ?_
  match more, missing, there with
  | [], _, there =>
    rw [there.gettoken_nil.1]
    decide
  | .op o :: _, _, there =>
    rw [(there.gettoken plain).1]
    exact (code_op_ne o).1
  | .word chars :: rest, missing, _ => exact (missing chars rest rfl).elim

theorem parseredirs_sound {fuel : Nat} {cmd : Cmd Span} {t : Tree} {s : Nat} {ts : List Token}
    (here : At line s ts) (spells : Spells line cmd t) (enough : ts.length < fuel) :
    (∃ (rs : List Redir) (more : List Token), ts = rs.flatMap Redir.tokens ++ more ∧
      Accepts line (parseredirs line fuel cmd s) (rs.foldl Redir.wrap t) more) ∨
      Refuses (parseredirs line fuel cmd s) := by
  induction fuel generalizing cmd t s ts with
  | zero => exact (Nat.not_lt_zero _ enough).elim
  | succ fuel ih =>
    cases found : starts (bytes ['<', '>']) ts with
    | false => exact .inl ⟨[], ts, rfl, parseredirs_stop plain here spells found⟩
    | true =>
      obtain ⟨o, rest, rfl, isRedir⟩ := exists_of_starts found
      obtain ⟨d, rfl⟩ := starts_redir.1 isRedir
      by_cases missing : ∀ chars more, rest ≠ .word chars :: more
      · exact .inr (parseredirs_refuses plain here missing)
      · push Not at missing
        obtain ⟨chars, more, rfl⟩ := missing
        obtain ⟨cmd', s', same, there, spells'⟩ :=
          parseredirs_cons plain fuel ⟨d, chars⟩ here spells
        rw [same]
        have shorter : more.length < fuel := by
          simp only [List.length_cons] at enough
          omega
        refine (ih there spells' shorter).imp_left ?_
        rintro ⟨rs, last, rfl, accepts⟩
        exact ⟨⟨d, chars⟩ :: rs, last, rfl, accepts⟩

theorem parseredirs_complete {fuel : Nat} {cmd : Cmd Span} {t : Tree} {s : Nat} {rs : List Redir}
    {more : List Token} (here : At line s (rs.flatMap Redir.tokens ++ more))
    (spells : Spells line cmd t) (stop : starts (bytes ['<', '>']) more = false)
    (enough : rs.length < fuel) :
    Accepts line (parseredirs line fuel cmd s) (rs.foldl Redir.wrap t) more := by
  induction rs generalizing fuel cmd t s with
  | nil =>
    obtain ⟨fuel, rfl⟩ := Nat.exists_eq_add_of_lt enough
    exact parseredirs_stop plain here spells stop
  | cons r rs ih =>
    obtain ⟨fuel, rfl⟩ : ∃ less, fuel = less + 1 := ⟨fuel - 1, by omega⟩
    rw [List.flatMap_cons, List.append_assoc] at here
    obtain ⟨cmd', s', same, there, spells'⟩ := parseredirs_cons plain fuel r here spells
    rw [same]
    exact ih there spells' (Nat.lt_of_succ_lt_succ enough)

theorem parseargs_stop {fuel argc : Nat} {ret : Cmd Span} {t : Tree} {s : Nat} {ts : List Token}
    (here : At line s ts) (spells : Spells line ret t)
    (stop : Follow (bytes ['|', ')', '&', ';']) ts) :
    Accepts line (parseargs line (fuel + 1) argc ret s) t ts := by
  unfold parseargs
  simp only
  rw [here.peek_found plain (by decide)]
  rcases stop with rfl | found
  · obtain ⟨ended, next⟩ := (here.peek (bytes ['|', ')', '&', ';'])).gettoken_nil
    refine ⟨ret, _, ?_, next, spells⟩
    rw [if_neg (by decide), if_pos ended]
  · refine ⟨ret, _, ?_, here.peek (bytes ['|', ')', '&', ';']), spells⟩
    rw [if_pos found]

theorem parseargs_word (fuel argc : Nat) {ret : Cmd Span} {t : Tree} {s : Nat} {chars : List UInt8}
    {more : List Token} (here : At line s (.word chars :: more)) (spells : Spells line ret t) :
    ∃ ret' s', parseargs line (fuel + 1) argc ret s =
        (if argc + 1 ≥ MAXARGS then .error (.panic "too many args") else do
          let (ret, s) ← parseredirs line fuel ret' s'
          parseargs line fuel (argc + 1) ret s) ∧
      At line s' more ∧ Spells line ret' (t.addArg chars) := by
  obtain ⟨isWord, there, word⟩ := (here.peek (bytes ['|', ')', '&', ';'])).gettoken plain
  refine ⟨_, _, ?_, there, spells.addArg (word chars rfl)⟩
  conv_lhs => unfold parseargs
  simp only
  have other : starts (bytes ['|', ')', '&', ';']) (.word chars :: more) = false := rfl
  rw [here.peek_found plain (by decide), other, if_neg Bool.false_ne_true, isWord, Token.code,
    if_neg (by decide)]
  exact if_neg fun differs => differs rfl

theorem parseargs_refuses {fuel argc : Nat} {ret : Cmd Span} {s : Nat} {o : Op} {more : List Token}
    (here : At line s (.op o :: more))
    (other : starts (bytes ['|', ')', '&', ';']) (.op o :: more) = false) :
    Refuses (parseargs line (fuel + 1) argc ret s) := by
  obtain ⟨code, _, _⟩ := (here.peek (bytes ['|', ')', '&', ';'])).gettoken plain
  refine ⟨"syntax", ?_⟩
  unfold parseargs
  simp only
  rw [here.peek_found plain (by decide), other, if_neg Bool.false_ne_true, code,
    if_neg (code_op_ne o).2, if_pos (code_op_ne o).1]

/-- The loop of `parseexec` takes words with the redirections behind them. -/
theorem parseargs_sound {fuel argc : Nat} {ret : Cmd Span} {t : Tree} {s : Nat} {ts : List Token}
    (here : At line s ts) (spells : Spells line ret t) (enough : ts.length < fuel)
    (few : argc < MAXARGS) :
    (∃ (args : List Arg) (more : List Token), ts = args.flatMap Arg.tokens ++ more ∧
    argc + args.length < MAXARGS ∧
      Accepts line (parseargs line fuel argc ret s) (args.foldl Arg.extend t) more) ∨
      Refuses (parseargs line fuel argc ret s) := by
  induction fuel generalizing argc ret t s ts with
  | zero => exact (Nat.not_lt_zero _ enough).elim
  | succ fuel ih =>
    match ts, here, enough with
    | [], here, _ => exact .inl ⟨[], [], rfl, few, parseargs_stop plain here spells (.inl rfl)⟩
    | .op o :: rest, here, _ =>
      cases found : starts (bytes ['|', ')', '&', ';']) (.op o :: rest) with
      | true => exact .inl ⟨[], _, rfl, few, parseargs_stop plain here spells (.inr found)⟩
      | false => exact .inr (parseargs_refuses plain here found)
    | .word chars :: rest, here, enough =>
      obtain ⟨ret', s', same, there, spells'⟩ := parseargs_word plain fuel argc here spells
      rw [same]
      by_cases many : argc + 1 ≥ MAXARGS
      · rw [if_pos many]
        exact .inr ⟨_, rfl⟩
      rw [if_neg many]
      rcases parseredirs_sound plain there spells' (Nat.lt_of_succ_lt_succ enough) with
        ⟨rs, more, rfl, cmd, after, is, next, wrapped⟩ | ⟨message, is⟩
      · rw [is, ok_bind]
        have shorter : more.length < fuel := by
          simp only [List.length_cons, List.length_append] at enough
          omega
        refine (ih next wrapped shorter (Nat.lt_of_not_le many)).imp_left ?_
        rintro ⟨args, last, rfl, fewer, accepts⟩
        refine ⟨⟨chars, rs⟩ :: args, last, ?_, by rw [List.length_cons]; omega, accepts⟩
        rw [List.flatMap_cons, List.append_assoc]
        rfl
      · rw [is, error_bind]
        exact .inr ⟨message, rfl⟩

theorem parseargs_complete (argc : Nat) {fuel : Nat} {ret : Cmd Span} {t : Tree} {s : Nat}
    {args : List Arg} {more : List Token} (here : At line s (args.flatMap Arg.tokens ++ more))
    (spells : Spells line ret t) (stop : Follow (bytes ['|', ')', '&', ';']) more)
    (few : argc + args.length < MAXARGS) (enough : (args.flatMap Arg.tokens).length < fuel) :
    Accepts line (parseargs line fuel argc ret s) (args.foldl Arg.extend t) more := by
  induction args generalizing fuel argc ret t s with
  | nil =>
    obtain ⟨fuel, rfl⟩ := Nat.exists_eq_add_of_lt enough
    exact parseargs_stop plain here spells stop
  | cons a args ih =>
    obtain ⟨fuel, rfl⟩ : ∃ less, fuel = less + 1 := ⟨fuel - 1, by omega⟩
    rw [List.flatMap_cons, List.append_assoc] at here
    rw [List.flatMap_cons, List.length_append] at enough
    rw [List.length_cons] at few
    obtain ⟨ret', s', same, there, spells'⟩ := parseargs_word plain fuel argc here spells
    have wordNext : starts (bytes ['<', '>']) (args.flatMap Arg.tokens ++ more) = false :=
      starts_args (stop.not_starts (by decide))
    have fewRedirs : a.redirs.length < fuel := by
      have := length_le_flatMap_tokens a.redirs
      rw [Arg.tokens, List.length_cons] at enough
      omega
    obtain ⟨cmd, after, is, next, wrapped⟩ :=
      parseredirs_complete plain there spells' wordNext fewRedirs
    rw [same, if_neg (by omega), is, ok_bind]
    refine ih (argc + 1) next wrapped (by omega) ?_
    rw [Arg.tokens, List.length_cons] at enough
    omega

theorem At.take {s : Nat} {o : Op} {more : List Token} (here : At line s (.op o :: more))
    (toks : List UInt8) (sub : toks.all fun c => c ∈ symbols)
    (first : toks.contains o.first = true) :
    (Shell.peek line s toks).found = true ∧
    At line (Shell.gettoken line (Shell.peek line s toks).next).next more :=
  ⟨(here.peek_found plain sub).trans first, ((here.peek toks).gettoken plain).2.1⟩

theorem At.expect {s : Nat} {ts : List Token} (here : At line s ts) (c : Char) (o : Op)
    (first : bytes [c] = [o.first]) (single : o.first ≠ '>'.toUInt8) :
    starts (bytes [c]) ts = false ∧ (Shell.peek line s (bytes [c])).found = false ∨
      ∃ more, ts = .op o :: more ∧ (Shell.peek line s (bytes [c])).found = true ∧
        At line (Shell.gettoken line (Shell.peek line s (bytes [c])).next).next more := by
  have sub : (bytes [c]).all fun c => c ∈ symbols := by
    rw [first]
    cases o <;> decide
  have found := here.peek_found plain sub
  cases starting : starts (bytes [c]) ts with
  | false => exact .inl ⟨rfl, found.trans starting⟩
  | true =>
    obtain ⟨p, more, rfl, among⟩ := exists_of_starts starting
    have same : p = o := by
      rw [first] at among
      revert single among
      cases o <;> cases p <;> decide
    subst same
    exact .inr ⟨more, rfl, here.take plain _ sub among⟩

theorem parseback_stop {fuel : Nat} {cmd : Cmd Span} {t : Tree} {s : Nat} {ts : List Token}
    (here : At line s ts) (spells : Spells line cmd t) (stop : starts (bytes ['&']) ts = false) :
    Accepts line (parseback line (fuel + 1) cmd s) t ts := by
  refine ⟨cmd, _, ?_, here.peek (bytes ['&']), spells⟩
  unfold parseback
  simp only
  rw [here.peek_found plain (by decide), stop, if_neg Bool.false_ne_true]

theorem parseback_cons (fuel : Nat) (cmd : Cmd Span) {s : Nat} {more : List Token}
    (here : At line s (.op .amp :: more)) :
    ∃ s', parseback line (fuel + 1) cmd s = parseback line fuel (.back cmd) s' ∧
      At line s' more := by
  obtain ⟨found, there⟩ := here.take plain (bytes ['&']) (by decide) (by decide)
  refine ⟨_, ?_, there⟩
  conv_lhs => unfold parseback
  simp only
  rw [if_pos found]

theorem parseback_sound {fuel : Nat} {cmd : Cmd Span} {t : Tree} {s : Nat} {ts : List Token}
    (here : At line s ts) (spells : Spells line cmd t) (enough : ts.length < fuel) :
    ∃ (k : Nat) (more : List Token), ts = List.replicate k (.op .amp) ++ more ∧
      Accepts line (parseback line fuel cmd s) (Cmd.back^[k] t) more := by
  induction fuel generalizing cmd t s ts with
  | zero => exact (Nat.not_lt_zero _ enough).elim
  | succ fuel ih =>
    rcases here.expect plain '&' .amp rfl (by decide) with ⟨none, _⟩ | ⟨rest, rfl, _⟩
    · exact ⟨0, ts, rfl, parseback_stop plain here spells none⟩
    · obtain ⟨s', same, there⟩ := parseback_cons plain fuel cmd here
      obtain ⟨k, more, rfl, accepts⟩ := ih there (.back spells) (Nat.lt_of_succ_lt_succ enough)
      rw [same]
      exact ⟨k + 1, more, rfl, accepts⟩

theorem parseback_complete {fuel k : Nat} {cmd : Cmd Span} {t : Tree} {s : Nat} {more : List Token}
    (here : At line s (List.replicate k (.op .amp) ++ more)) (spells : Spells line cmd t)
    (stop : starts (bytes ['&']) more = false) (enough : k < fuel) :
    Accepts line (parseback line fuel cmd s) (Cmd.back^[k] t) more := by
  induction k generalizing fuel cmd t s with
  | zero =>
    obtain ⟨fuel, rfl⟩ := Nat.exists_eq_add_of_lt enough
    exact parseback_stop plain here spells stop
  | succ k ih =>
    obtain ⟨fuel, rfl⟩ : ∃ less, fuel = less + 1 := ⟨fuel - 1, by omega⟩
    obtain ⟨s', same, there⟩ := parseback_cons plain fuel cmd here
    rw [same]
    exact ih there (.back spells) (Nat.lt_of_succ_lt_succ enough)

end

end Xv6.Shell
