/-
**`parsecmd` accepts exactly the grammar, and returns the tree of the derivation.**

Soundness goes along the fuel: a call takes off the line the tokens that some derivation uses, or
panics, and it does not use up its fuel. Completeness goes along the derivation: where the tokens
that follow cannot be part of it, the call takes just its tokens and returns its tree.
-/

import Xv6.Shell.Grammar

namespace Xv6.Shell

open Lib

/-! ### Soundness -/

theorem foldl_extend (args : List Arg) (rs : List Redir) (words : List (List UInt8)) :
    args.foldl Arg.extend (rs.foldl Redir.wrap (.exec words)) =
      (rs ++ args.flatMap Arg.redirs).foldl Redir.wrap (.exec (words ++ args.map Arg.word)) := by
  have addArg : ∀ (rs : List Redir) (t : Tree) (chars : List UInt8),
      (rs.foldl Redir.wrap t).addArg chars = rs.foldl Redir.wrap (t.addArg chars) := by
    intro rs
    induction rs with
    | nil => exact fun _ _ => rfl
    | cons r rs ih => exact fun t chars => ih (r.wrap t) chars
  induction args generalizing rs words with
  | nil => rw [List.flatMap_nil, List.append_nil, List.map_nil, List.append_nil, List.foldl_nil]
  | cons a args ih =>
    have first : Arg.extend (rs.foldl Redir.wrap (.exec words)) a =
        (rs ++ a.redirs).foldl Redir.wrap (.exec (words ++ [a.word])) := by
      rw [Arg.extend, addArg, List.foldl_append]
      rfl
    rw [List.foldl_cons, first, ih, List.flatMap_cons, List.append_assoc, List.append_assoc,
      List.map_cons]
    rfl

section

variable {line : List UInt8} (plain : 0 ∉ line)

/-- The call returns the tree of a derivation of the tokens it takes off the line, or panics. -/
def Sound (line : List UInt8) (r : Except Stop (Cmd Span × Nat))
    (Derives : List Token → Tree → Prop) (ts : List Token) : Prop :=
  (∃ used t more, ts = used ++ more ∧ Derives used t ∧ Accepts line r t more) ∨ Refuses r

/-- So does every call of `parse` for which the fuel is enough. -/
def SoundAll (line : List UInt8) (parse : Nat → Except Stop (Cmd Span × Nat))
    (Derives : List Token → Tree → Prop) (spare fuel : Nat) : Prop :=
  ∀ s ts, At line s ts → 4 * ts.length + spare ≤ fuel → Sound line (parse s) Derives ts

theorem Sound.bind {r : Except Stop (Cmd Span × Nat)}
    {f : Cmd Span × Nat → Except Stop (Cmd Span × Nat)}
    {Derives Derives' : List Token → Tree → Prop} {us ts : List Token}
    (first : Sound line r Derives us)
    (next : ∀ used t more cmd s, us = used ++ more → Derives used t → At line s more →
    Spells line cmd t →
      Sound line (f (cmd, s)) Derives' ts) : Sound line (r >>= f) Derives' ts := by
  rcases first with ⟨used, t, more, split, derives, cmd, s, rfl, there, spells⟩ | ⟨message, rfl⟩
  · exact next used t more cmd s split derives there spells
  · exact .inr ⟨message, rfl⟩

include plain

theorem parseblock_sound {fuel : Nat} (lines : SoundAll line (parseline line fuel) Line 4 fuel) :
    SoundAll line (parseblock line (fuel + 1)) Exec 1 (fuel + 1) := by
  intro s ts here enough
  unfold parseblock
  simp only
  rcases here.expect plain '(' .lparen rfl (by decide) with ⟨_, none⟩ | ⟨rest, rfl, opened, inner⟩
  · rw [none, if_neg Bool.false_ne_true]
    exact .inr ⟨"parseblock", rfl⟩
  rw [if_pos opened]
  rw [List.length_cons] at enough
  refine (lines _ _ inner (by omega)).bind ?_
  rintro used t more cmd s' rfl derives there spells
  simp only
  rcases there.expect plain ')' .rparen rfl (by decide) with ⟨_, none⟩ | ⟨last, rfl, closed, outer⟩
  · rw [none, if_neg Bool.false_ne_true]
    exact .inr ⟨"syntax - missing )", rfl⟩
  rw [if_pos closed]
  rw [List.length_append, List.length_cons] at enough
  refine (parseredirs_sound plain outer spells (by omega)).imp_left ?_
  rintro ⟨rs, rest, rfl, accepts⟩
  refine ⟨_, _, rest, ?_, .block rs derives, accepts⟩
  simp only [List.cons_append, List.append_assoc]

theorem parseexec_sound {fuel : Nat} (blocks : SoundAll line (parseblock line fuel) Exec 1 fuel) :
    SoundAll line (parseexec line (fuel + 1)) Exec 2 (fuel + 1) := by
  intro s ts here enough
  have there := here.peek (bytes ['('])
  unfold parseexec
  simp only
  split
  · exact blocks _ _ there (by omega)
  rcases parseredirs_sound plain there (.exec .nil) (show ts.length < fuel by omega) with
    ⟨rs, more, rfl, cmd, s', is, next, spells⟩ | ⟨message, is⟩
  · rw [is, ok_bind]
    rw [List.length_append] at enough
    refine (parseargs_sound plain next spells (show more.length < fuel by omega)
      (by decide)).imp_left ?_
    rintro ⟨args, last, rfl, few, accepts⟩
    rw [foldl_extend, List.nil_append] at accepts
    exact ⟨_, _, last, (List.append_assoc _ _ _).symm, .simple rs args (by omega), accepts⟩
  · rw [is, error_bind]
    exact .inr ⟨message, rfl⟩

theorem parsepipe_sound {fuel : Nat} (execs : SoundAll line (parseexec line fuel) Exec 2 fuel)
    (pipes : SoundAll line (parsepipe line fuel) Pipe 3 fuel) :
    SoundAll line (parsepipe line (fuel + 1)) Pipe 3 (fuel + 1) := by
  intro s ts here enough
  unfold parsepipe
  refine (execs _ _ here (by omega)).bind ?_
  rintro used t more cmd s' rfl derives there spells
  simp only
  rcases there.expect plain '|' .bar rfl (by decide) with ⟨_, none⟩ | ⟨rest, rfl, bar, next⟩
  · rw [none, if_neg Bool.false_ne_true]
    exact .inl ⟨used, t, more, rfl, .last derives, cmd, _, rfl, there.peek _, spells⟩
  rw [if_pos bar]
  rw [List.length_append, List.length_cons] at enough
  refine (pipes _ _ next (by omega)).bind ?_
  rintro taken u last right e rfl second ends spelled
  refine .inl ⟨_, _, last, ?_, .seq derives second, _, e, rfl, ends, .pipe spells spelled⟩
  rw [List.append_assoc, List.cons_append]

theorem parseline_sound {fuel : Nat} (pipes : SoundAll line (parsepipe line fuel) Pipe 3 fuel)
    (lines : SoundAll line (parseline line fuel) Line 4 fuel) :
    SoundAll line (parseline line (fuel + 1)) Line 4 (fuel + 1) := by
  intro s ts here enough
  unfold parseline
  refine (pipes _ _ here (by omega)).bind ?_
  rintro used t more cmd s' rfl derives there spells
  rw [List.length_append] at enough
  obtain ⟨k, rest, rfl, cmd', s'', is', next, spells'⟩ :=
    parseback_sound plain there spells (show more.length < fuel by omega)
  simp only
  rw [is', ok_bind]
  simp only
  rcases next.expect plain ';' .semi rfl (by decide) with ⟨_, none⟩ | ⟨after, rfl, semi, behind⟩
  · rw [none, if_neg Bool.false_ne_true]
    exact .inl ⟨_, _, rest, (List.append_assoc _ _ _).symm, .last k derives, cmd', _, rfl,
      next.peek _, spells'⟩
  rw [if_pos semi]
  rw [List.length_append, List.length_cons] at enough
  refine (lines _ _ behind (by omega)).bind ?_
  rintro taken u last right e rfl second ends spelled
  refine .inl ⟨_, _, last, ?_, .seq k derives second, _, e, rfl, ends, .list spells' spelled⟩
  simp only [List.append_assoc, List.cons_append]

/-- All four functions, by induction on the fuel. -/
theorem parse_sound (fuel : Nat) : SoundAll line (parseline line fuel) Line 4 fuel ∧
    SoundAll line (parsepipe line fuel) Pipe 3 fuel ∧
    SoundAll line (parseexec line fuel) Exec 2 fuel ∧
    SoundAll line (parseblock line fuel) Exec 1 fuel := by
  induction fuel with
  | zero =>
    refine ⟨?_, ?_, ?_, ?_⟩
    all_goals
      intro s ts _ enough
      omega
  | succ fuel ih =>
    obtain ⟨lines, pipes, execs, blocks⟩ := ih
    exact ⟨parseline_sound plain pipes lines, parsepipe_sound plain execs pipes,
      parseexec_sound plain blocks, parseblock_sound plain lines⟩

/-! ### Completeness -/

omit plain in
theorem Follow.amps {toks : List UInt8} {more : List Token} (follow : Follow toks more)
    (amp : toks.contains '&'.toUInt8 = true) (k : Nat) :
    Follow toks (List.replicate k (.op .amp) ++ more) := by
  cases k with
  | zero => exact follow
  | succ k => exact .inr amp

theorem parseblock_complete {fuel s : Nat} {used more : List Token} {t : Tree} {rs : List Redir}
    (here : At line s (.op .lparen :: used ++ .op .rparen :: rs.flatMap Redir.tokens ++ more))
    (lines : ∀ s, At line s (used ++ (.op .rparen :: rs.flatMap Redir.tokens ++ more)) →
      Accepts line (parseline line fuel s) t (.op .rparen :: rs.flatMap Redir.tokens ++ more))
    (stop : starts (bytes ['<', '>']) more = false) (enough : rs.length < fuel) :
    Accepts line (parseblock line (fuel + 1) s) (rs.foldl Redir.wrap t) more := by
  rw [List.append_assoc, List.cons_append] at here
  obtain ⟨opened, inner⟩ := here.take plain (bytes ['(']) (by decide) (by decide)
  obtain ⟨cmd, s', is, there, spells⟩ := lines _ inner
  obtain ⟨closed, outer⟩ := there.take plain (bytes [')']) (by decide) (by decide)
  unfold parseblock
  simp only
  rw [if_pos opened, is, ok_bind]
  simp only
  rw [if_pos closed]
  exact parseredirs_complete plain outer spells stop enough

omit plain in
theorem starts_simple {rs : List Redir} {args : List Arg} {more : List Token}
    (follow : Follow (bytes ['|', ')', '&', ';']) more) :
    starts (bytes ['(']) (rs.flatMap Redir.tokens ++ args.flatMap Arg.tokens ++ more) = false := by
  match rs, args with
  | ⟨.input, _⟩ :: _, _ => rfl
  | ⟨.output, _⟩ :: _, _ => rfl
  | ⟨.append, _⟩ :: _, _ => rfl
  | [], _ :: _ => rfl
  | [], [] => exact follow.not_starts (by decide)

mutual

/-- By induction on the derivation, with `Pipe.complete` and `Exec.complete`. -/
theorem Line.complete {used more : List Token} {t : Tree} {fuel s : Nat} (derives : Line used t)
    (here : At line s (used ++ more)) (follow : Follow (bytes [')']) more)
    (enough : 4 * (used ++ more).length + 4 ≤ fuel) :
    Accepts line (parseline line fuel s) t more := by
  obtain ⟨fuel, rfl⟩ : ∃ less, fuel = less + 1 := ⟨fuel - 1, by omega⟩
  unfold parseline
  simp only
  cases derives with
  | last k pipe =>
    rw [List.append_assoc] at here enough
    obtain ⟨cmd, s', is, there, spells⟩ :=
      pipe.complete here ((follow.mono (by decide)).amps (by decide) k) (show _ ≤ fuel by omega)
    simp only [List.length_append, List.length_replicate] at enough
    obtain ⟨cmd', s'', is', next, spells'⟩ :=
      parseback_complete plain there spells (follow.not_starts (by decide)) (show k < fuel by omega)
    rw [is, ok_bind]
    simp only
    rw [is', ok_bind]
    simp only
    rw [next.peek_found plain (by decide), follow.not_starts (by decide), if_neg Bool.false_ne_true]
    exact ⟨_, _, rfl, next.peek _, spells'⟩
  | seq k pipe right =>
    rw [List.append_assoc, List.append_assoc, List.cons_append] at here enough
    obtain ⟨cmd, s', is, there, spells⟩ :=
      pipe.complete here (Follow.amps (.inr rfl) (by decide) k) (show _ ≤ fuel by omega)
    simp only [List.length_append, List.length_replicate, List.length_cons] at enough
    obtain ⟨cmd', s'', is', next, spells'⟩ :=
      parseback_complete plain there spells rfl (show k < fuel by omega)
    obtain ⟨found, behind⟩ := next.take plain (bytes [';']) (by decide) (by decide)
    obtain ⟨cmdRight, e, isRight, ends, spelled⟩ := right.complete behind follow
      (show _ ≤ fuel by rw [List.length_append]; omega)
    rw [is, ok_bind]
    simp only
    rw [is', ok_bind]
    simp only
    rw [if_pos found, isRight, ok_bind]
    exact ⟨_, _, rfl, ends, .list spells' spelled⟩

theorem Pipe.complete {used more : List Token} {t : Tree} {fuel s : Nat} (derives : Pipe used t)
    (here : At line s (used ++ more)) (follow : Follow (bytes [')', '&', ';']) more)
    (enough : 4 * (used ++ more).length + 3 ≤ fuel) :
    Accepts line (parsepipe line fuel s) t more := by
  obtain ⟨fuel, rfl⟩ : ∃ less, fuel = less + 1 := ⟨fuel - 1, by omega⟩
  unfold parsepipe
  simp only
  cases derives with
  | last exec =>
    obtain ⟨cmd, s', is, there, spells⟩ :=
      exec.complete here (follow.mono (by decide)) (show _ ≤ fuel by omega)
    rw [is, ok_bind]
    simp only
    rw [there.peek_found plain (by decide), follow.not_starts (by decide),
      if_neg Bool.false_ne_true]
    exact ⟨_, _, rfl, there.peek _, spells⟩
  | seq exec right =>
    rw [List.append_assoc, List.cons_append] at here enough
    obtain ⟨cmd, s', is, there, spells⟩ := exec.complete here (.inr rfl) (show _ ≤ fuel by omega)
    simp only [List.length_append, List.length_cons] at enough
    obtain ⟨found, behind⟩ := there.take plain (bytes ['|']) (by decide) (by decide)
    obtain ⟨cmdRight, e, isRight, ends, spelled⟩ := right.complete behind follow
      (show _ ≤ fuel by rw [List.length_append]; omega)
    rw [is, ok_bind]
    simp only
    rw [if_pos found, isRight, ok_bind]
    exact ⟨_, _, rfl, ends, .pipe spells spelled⟩

theorem Exec.complete {used more : List Token} {t : Tree} {fuel s : Nat} (derives : Exec used t)
    (here : At line s (used ++ more)) (follow : Follow (bytes ['|', ')', '&', ';']) more)
    (enough : 4 * (used ++ more).length + 2 ≤ fuel) :
    Accepts line (parseexec line fuel s) t more := by
  obtain ⟨fuel, rfl⟩ : ∃ less, fuel = less + 1 := ⟨fuel - 1, by omega⟩
  have there := here.peek (bytes ['('])
  unfold parseexec
  simp only
  rw [here.peek_found plain (by decide)]
  cases derives with
  | block rs inner =>
    obtain ⟨fuel, rfl⟩ : ∃ less, fuel = less + 1 := ⟨fuel - 1, by omega⟩
    have few := length_le_flatMap_tokens rs
    simp only [List.length_append, List.length_cons] at enough
    rw [show starts (bytes ['(']) _ = true from rfl, if_pos rfl]
    refine parseblock_complete plain there (fun s inside => ?_)
      (follow.not_starts (by decide)) (by omega)
    refine inner.complete inside (.inr rfl) ?_
    simp only [List.length_append, List.length_cons]
    omega
  | simple rs args few =>
    rw [starts_simple follow, if_neg Bool.false_ne_true]
    have fewRedirs := length_le_flatMap_tokens rs
    rw [List.append_assoc] at there
    simp only [List.length_append] at enough
    have wordNext : starts (bytes ['<', '>']) (args.flatMap Arg.tokens ++ more) = false :=
      starts_args (follow.not_starts (by decide))
    obtain ⟨cmd, s', is, next, spells⟩ :=
      parseredirs_complete plain there (.exec .nil) wordNext (show rs.length < fuel by omega)
    rw [is, ok_bind]
    have accepts := parseargs_complete plain 0 next spells follow (by omega)
      (show (args.flatMap Arg.tokens).length < fuel by omega)
    rw [foldl_extend, List.nil_append] at accepts
    exact accepts

end

end

/-! ### The strings -/

theorem nulterminate_eq (cmd : Cmd Span) (buf : List UInt8) :
    nulterminate cmd buf = cmd.words.foldl (fun buf word => buf.set word.eq 0) buf := by
  induction cmd generalizing buf with
  | exec argv => rfl
  | redir cmd file mode fd ih => rw [nulterminate, Cmd.words, List.foldl_append, ih]; rfl
  | pipe left right first second => rw [nulterminate, Cmd.words, List.foldl_append, first, second]
  | list left right first second => rw [nulterminate, Cmd.words, List.foldl_append, first, second]
  | back cmd ih => exact ih buf

theorem getElem?_foldl_set {words : List Span} {i : Nat} (apart : ∀ word ∈ words, word.eq ≠ i)
    (buf : List UInt8) : (words.foldl (fun buf word => buf.set word.eq 0) buf)[i]? = buf[i]? := by
  induction words generalizing buf with
  | nil => rfl
  | cons word words ih =>
    rw [List.foldl_cons, ih fun other mem => apart other (List.mem_cons_of_mem _ mem),
      List.getElem?_set_ne (apart word List.mem_cons_self)]

theorem getElem?_foldl_set_end {words : List Span} {i : Nat} (ends : ∃ word ∈ words, word.eq = i)
    {buf : List UInt8} (inside : i < buf.length) :
    (words.foldl (fun buf word => buf.set word.eq 0) buf)[i]? = some 0 := by
  induction words generalizing buf with
  | nil =>
    obtain ⟨word, mem, _⟩ := ends
    exact (List.not_mem_nil mem).elim
  | cons first words ih =>
    rw [List.foldl_cons]
    by_cases later : ∃ word ∈ words, word.eq = i
    · exact ih later (by rw [List.length_set]; exact inside)
    · push Not at later
      obtain ⟨word, mem, rfl⟩ := ends
      obtain rfl : word = first :=
        (List.mem_cons.1 mem).resolve_right fun among => later word among rfl
      rw [getElem?_foldl_set later, List.getElem?_set_self inside]

theorem WordAt.stringAt {line buf : List UInt8} {q eq : Nat} {chars : List UInt8}
    (word : WordAt line q eq chars) (plain : 0 ∉ line)
    (kept : ∀ i, q ≤ i → i < eq → buf[i]? = (line)[i]?) (nul : buf[eq]? = some 0) :
    stringAt buf q = chars := by
  have spans : (buf.drop q).take (eq - q) = chars := by
    rw [← word.reads]
    refine List.ext_getElem? fun i => ?_
    by_cases short : i < eq - q
    · rw [List.getElem?_take_of_lt short, List.getElem?_take_of_lt short, List.getElem?_drop,
        List.getElem?_drop, kept (q + i) (Nat.le_add_right _ _) (by omega)]
    · rw [List.getElem?_eq_none (Nat.le_trans (List.length_take_le _ _) (Nat.le_of_not_lt short)),
        List.getElem?_eq_none (Nat.le_trans (List.length_take_le _ _) (Nat.le_of_not_lt short))]
  obtain ⟨rest, ended⟩ : ∃ rest, buf.drop eq = 0 :: rest := by
    refine List.head?_eq_some_iff.1 ?_
    rw [List.head?_drop, nul]
  have whole : buf.drop q = chars ++ 0 :: rest := by
    rw [← ended, ← spans, ← Nat.add_sub_cancel' word.ordered, ← List.drop_drop,
      Nat.add_sub_cancel_left, List.take_append_drop]
  have nonzero : ∀ c ∈ chars, decide (c ≠ 0) = true := by
    intro c mem
    refine decide_eq_true ?_
    rintro rfl
    rw [← word.reads] at mem
    exact plain (List.mem_of_mem_drop (List.mem_of_mem_take mem))
  unfold Shell.stringAt
  rw [whole, List.takeWhile_append_of_pos nonzero, List.takeWhile_cons_of_neg (by decide),
    List.append_nil]

theorem Spells.wordAt {line : List UInt8} {cmd : Cmd Span} {t : Tree} (spells : Spells line cmd t) :
    ∀ span ∈ cmd.words, ∃ chars, WordAt line span.q span.eq chars := by
  induction spells with
  | exec all =>
    induction all with
    | nil => exact fun _ mem => (List.not_mem_nil mem).elim
    | cons word _ ih =>
      intro span mem
      rcases List.mem_cons.1 mem with rfl | later
      · exact ⟨_, word⟩
      · exact ih span later
  | redir mode fd _ word ih =>
    intro span mem
    rcases List.mem_append.1 mem with inner | last
    · exact ih span inner
    · obtain rfl := List.mem_singleton.1 last
      exact ⟨_, word⟩
  | pipe _ _ first second =>
    exact fun span mem => (List.mem_append.1 mem).elim (first span) (second span)
  | list _ _ first second =>
    exact fun span mem => (List.mem_append.1 mem).elim (first span) (second span)
  | back _ ih => exact ih

theorem Spells.strings_eq {line buf : List UInt8} {cmd : Cmd Span} {t : Tree}
    (spells : Spells line cmd t)
    (reads : ∀ span ∈ cmd.words, ∀ chars, WordAt line span.q span.eq chars →
    stringAt buf span.q = chars) : cmd.strings buf = t := by
  unfold Cmd.strings
  induction spells with
  | exec all =>
    refine congrArg Cmd.exec ?_
    induction all with
    | nil => rfl
    | cons word _ ih =>
      rw [List.map_cons, reads _ List.mem_cons_self _ word,
        ih fun span mem => reads span (List.mem_cons_of_mem _ mem)]
  | redir mode fd _ word ih =>
    rw [Cmd.map, ih fun span mem => reads span (List.mem_append_left _ mem),
      reads _ (List.mem_append_right _ (List.mem_singleton_self _)) _ word]
  | pipe _ _ first second =>
    rw [Cmd.map, first fun span mem => reads span (List.mem_append_left _ mem),
      second fun span mem => reads span (List.mem_append_right _ mem)]
  | list _ _ first second =>
    rw [Cmd.map, first fun span mem => reads span (List.mem_append_left _ mem),
      second fun span mem => reads span (List.mem_append_right _ mem)]
  | back _ ih => rw [Cmd.map, ih reads]

theorem Spells.reads {line : List UInt8} {cmd : Cmd Span} {t : Tree} (spells : Spells line cmd t)
    (plain : 0 ∉ line) (span : Span) (mem : span ∈ cmd.words) {chars : List UInt8}
    (word : WordAt line span.q span.eq chars) :
    stringAt (Shell.nulterminate cmd (line ++ [0])) span.q = chars := by
  refine word.stringAt plain (fun i after before => ?_) ?_
  · -- No word ends inside another one.
    have inside : i < line.length := Nat.lt_of_lt_of_le before word.inside
    rw [nulterminate_eq, getElem?_foldl_set ?_, List.getElem?_append_left inside]
    rintro other among rfl
    obtain ⟨_, otherWord⟩ := spells.wordAt other among
    refine otherWord.ends (line)[other.eq] (List.getElem?_eq_getElem inside) (word.inWord _ ?_)
    rw [← word.reads]
    refine List.mem_of_getElem? (i := other.eq - span.q) ?_
    rw [List.getElem?_take_of_lt (by omega), List.getElem?_drop, Nat.add_sub_cancel' after,
      List.getElem?_eq_getElem inside]
  · rw [nulterminate_eq]
    refine getElem?_foldl_set_end ⟨span, mem, rfl⟩ ?_
    rw [List.length_append, List.length_singleton]
    exact Nat.lt_succ_of_le word.inside

theorem Spells.nulterminate {line : List UInt8} {cmd : Cmd Span} {t : Tree}
    (spells : Spells line cmd t) (plain : 0 ∉ line) :
    cmd.strings (nulterminate cmd (line ++ [0])) = t :=
  spells.strings_eq fun span mem _ word => spells.reads plain span mem word

/-! ### The theorem -/

theorem length_tokens_le (line : List UInt8) : (tokens line).length ≤ line.length := by
  fun_induction tokens line with
  | case1 => exact Nat.le_refl _
  | case2 c rest space ih => exact Nat.le_succ_of_le ih
  | case3 c rest space word ih =>
    exact Nat.succ_le_succ (Nat.le_trans ih (List.length_dropWhile_le _ _))
  | case4 c rest space word double ih =>
    exact Nat.succ_le_succ (Nat.le_trans ih (by rw [List.length_tail]; exact Nat.sub_le _ _))
  | case5 c rest space word single ih => exact Nat.succ_le_succ ih

theorem At.unique {line : List UInt8} {s : Nat} {ts us : List Token} (first : At line s ts)
    (second : At line s us) :
    ts = us := first.tokens.symm.trans second.tokens

theorem parsecmd_of_ok {line : List UInt8} {cmd : Cmd Span} {s : Nat} {more : List Token}
    (is : parseline line (4 * (line.length + 1)) 0 = .ok (cmd, s)) (there : At line s more) :
    parsecmd line =
      if more = [] then .ok (cmd, nulterminate cmd (line ++ [0]))
      else .error (.panic "syntax") := by
  unfold parsecmd
  rw [is, ok_bind]
  simp only
  by_cases whole : more = []
  · rw [if_pos whole, if_neg (not_not_intro (there.peek_end.2 whole))]
    rfl
  · rw [if_neg whole, if_pos fun ends => whole (there.peek_end.1 ends)]

/-- **The parser accepts exactly the grammar.** On every line `parsecmd` returns or panics, and it
returns a command with the words of `tree` as its strings exactly when `tree` is denoted by a
derivation of the whole sequence of tokens. -/
theorem parsecmd_iff (line : List UInt8) (plain : 0 ∉ line) : parsecmd line ≠ .error .fuel ∧
    ∀ tree, (∃ cmd buf, parsecmd line = .ok (cmd, buf) ∧ cmd.strings buf = tree) ↔
    Line (tokens line) tree := by
  have start := At.start line
  have enough : 4 * (tokens line).length + 4 ≤ 4 * (line.length + 1) := by
    have := length_tokens_le line
    omega
  have complete : ∀ tree, Line (tokens line) tree →
      Accepts line (parseline line (4 * (line.length + 1)) 0) tree [] := by
    intro tree derives
    refine derives.complete plain (by rw [List.append_nil]; exact start) (.inl rfl) ?_
    rw [List.append_nil]
    exact enough
  have refuses : ∀ message, parsecmd line = .error (.panic message) →
    (∀ tree, ¬ Line (tokens line) tree) →
      parsecmd line ≠ .error .fuel ∧ ∀ tree,
        (∃ cmd buf, parsecmd line = .ok (cmd, buf) ∧ cmd.strings buf = tree) ↔
        Line (tokens line) tree := by
    intro message refused none
    rw [refused]
    refine ⟨fun same => (nomatch Except.error.inj same),
      fun tree => ⟨?_, fun derives => (none tree derives).elim⟩⟩
    rintro ⟨_, _, same, _⟩
    cases same
  rcases (parse_sound plain _).1 0 _ start enough with
    ⟨used, t, more, split, derives, cmd, s, is, there, spells⟩ | ⟨message, is⟩
  · by_cases whole : more = []
    · rw [parsecmd_of_ok is there, if_pos whole]
      refine ⟨fun same => (nomatch same), fun tree => ⟨?_, fun whole => ?_⟩⟩
      · rintro ⟨_, _, same, rfl⟩
        obtain ⟨rfl, rfl⟩ := Prod.mk.inj (Except.ok.inj same)
        rw [spells.nulterminate plain, split, whole, List.append_nil]
        exact derives
      · obtain ⟨cmd', s', is', _, spells'⟩ := complete tree whole
        obtain ⟨rfl, _⟩ := Prod.mk.inj (Except.ok.inj (is.symm.trans is'))
        exact ⟨_, _, rfl, spells'.nulterminate plain⟩
    · refine refuses _ ((parsecmd_of_ok is there).trans (if_neg whole)) fun tree derives => ?_
      obtain ⟨cmd', s', is', ends, _⟩ := complete tree derives
      obtain ⟨_, rfl⟩ := Prod.mk.inj (Except.ok.inj (is.symm.trans is'))
      exact whole (there.unique ends)
  · refine refuses message ?_ fun tree derives => ?_
    · unfold parsecmd
      rw [is, error_bind]
    · obtain ⟨_, _, is', _⟩ := complete tree derives
      cases is.symm.trans is'

/-- `a>b`. -/
theorem parsecmd_iff_redirected : ∃ cmd buf, parsecmd (bytes ['a', '>', 'b']) = .ok (cmd, buf) ∧
    cmd.strings buf = .redir (.exec [bytes ['a']]) (bytes ['b']) (O_WRONLY ||| O_CREATE) 1 := by
  refine ((parsecmd_iff (bytes ['a', '>', 'b']) (by decide)).2 _).2 ?_
  rw [show tokens (bytes ['a', '>', 'b']) =
    [.word (bytes ['a']), .op .gt, .word (bytes ['b'])] by decide +kernel]
  exact .last 0 (.last (.simple [] [⟨bytes ['a'], [⟨.output, bytes ['b']⟩]⟩] (by decide)))

/-! ### The strings of an accepted line -/

/-- The `argv` of each `execcmd` of a command. -/
def Cmd.execs {Word : Type} : Cmd Word → List (List Word)
  | exec argv => [argv]
  | redir cmd _ _ _ => cmd.execs
  | pipe left right => left.execs ++ right.execs
  | list left right => left.execs ++ right.execs
  | back cmd => cmd.execs

/-- The stores of `parseexec` to the array `cmd->argv` from `argc` on, the null pointer last; `none`
is a store past its end. `parseargs` keeps the list of the words alone; that the stores for it stay
inside the array is part of what is proved of an accepted line. -/
def storeArgv : List Span → Nat → List (Option Span) → Option (List (Option Span))
  | [], argc, array => if argc < array.length then some (array.set argc none) else none
  | word :: argv, argc, array =>
    if argc < array.length then storeArgv argv (argc + 1) (array.set argc (some word)) else none

/-- The array as `parseexec` leaves it, which `execcmd` has filled with null pointers. -/
def argvArray (argv : List Span) : Option (List (Option Span)) :=
  storeArgv argv 0 (List.replicate MAXARGS none)

theorem storeArgv_eq (argv before : List Span) {n : Nat} (few : argv.length < n) :
    storeArgv argv before.length (before.map some ++ List.replicate n none) =
      some ((before ++ argv).map some ++ List.replicate (n - argv.length) none) := by
  obtain ⟨n, rfl⟩ : ∃ k, n = k + 1 := ⟨n - 1, by omega⟩
  induction argv generalizing before n with
  | nil => simp [storeArgv, List.replicate_succ, List.set_append_right]
  | cons word argv ih =>
    rw [List.length_cons] at few
    obtain ⟨m, rfl⟩ : ∃ k, n = k + 1 := ⟨n - 1, by omega⟩
    have next := ih (before ++ [word]) m (by omega)
    rw [List.length_append, List.length_singleton] at next
    rw [storeArgv, if_pos (by simp)]
    have stored :
        (before.map some ++ List.replicate (m + 1 + 1) none).set before.length (some word) =
          (before ++ [word]).map some ++ List.replicate (m + 1) none := by
      simp [List.replicate_succ, List.set_append_right]
    rw [stored, next, List.append_assoc, List.length_cons, Nat.add_sub_add_right]
    rfl

theorem execs_wrap (rs : List Redir) (t : Tree) : (rs.foldl Redir.wrap t).execs = t.execs := by
  induction rs generalizing t with
  | nil => rfl
  | cons r rs ih => exact ih (r.wrap t)

theorem execs_back (k : Nat) (t : Tree) : (Cmd.back^[k] t).execs = t.execs := by
  induction k generalizing t with
  | zero => rfl
  | succ k ih => exact ih (.back t)

mutual

theorem Line.few {ts : List Token} {t : Tree} : Line ts t → ∀ argv ∈ t.execs, argv.length < MAXARGS
  | .last k pipe => by rw [execs_back]; exact pipe.few
  | .seq k pipe line => by
    rw [Cmd.execs, execs_back]
    exact fun argv among => (List.mem_append.1 among).elim (pipe.few argv) (line.few argv)

theorem Pipe.few {ts : List Token} {t : Tree} : Pipe ts t → ∀ argv ∈ t.execs, argv.length < MAXARGS
  | .last exec => exec.few
  | .seq exec pipe => fun argv among =>
    (List.mem_append.1 among).elim (exec.few argv) (pipe.few argv)

theorem Exec.few {ts : List Token} {t : Tree} : Exec ts t → ∀ argv ∈ t.execs, argv.length < MAXARGS
  | .block rs line => by rw [execs_wrap]; exact line.few
  | .simple rs args few => by
    rw [execs_wrap]
    intro argv among
    obtain rfl := List.mem_singleton.1 among
    rwa [List.length_map]

end

theorem execs_map {Word Other : Type} (f : Word → Other) (cmd : Cmd Word) :
    (cmd.map f).execs = cmd.execs.map (List.map f) := by
  induction cmd with
  | exec argv => rfl
  | redir cmd file mode fd ih => exact ih
  | pipe left right first second => rw [Cmd.map, Cmd.execs, first, second, ← List.map_append]; rfl
  | list left right first second => rw [Cmd.map, Cmd.execs, first, second, ← List.map_append]; rfl
  | back cmd ih => exact ih

theorem exists_spells {line : List UInt8} (plain : 0 ∉ line) {cmd : Cmd Span} {buf : List UInt8}
    (accepted : parsecmd line = .ok (cmd, buf)) : ∃ t, Line (tokens line) t ∧ Spells line cmd t ∧
      buf = nulterminate cmd (line ++ [0]) := by
  have enough : 4 * (tokens line).length + 4 ≤ 4 * (line.length + 1) := by
    have := length_tokens_le line
    omega
  rcases (parse_sound plain _).1 0 _ (At.start line) enough with
    ⟨used, t, more, split, derives, cmd', s, is, there, spells⟩ | ⟨message, is⟩
  · rw [parsecmd_of_ok is there] at accepted
    split_ifs at accepted with whole
    obtain ⟨rfl, rfl⟩ := Prod.mk.inj (Except.ok.inj accepted)
    rw [split, whole, List.append_nil]
    exact ⟨t, derives, spells, rfl⟩
  · unfold parsecmd at accepted
    rw [is, error_bind] at accepted
    cases accepted

/-- **Every token is cut exactly.** In the command of an accepted line every pointer to a word,
which is a longest run of word characters of the line, reads in the memory after `nulterminate` as
just this word; together they are the words of a derivation of the tokens; and each `argv` array
holds its words and then a null pointer. -/
theorem parsecmd_cuts (line : List UInt8) (plain : 0 ∉ line) (cmd : Cmd Span) (buf : List UInt8)
    (accepted : parsecmd line = .ok (cmd, buf)) :
    (∀ word ∈ cmd.words, ∃ chars, WordAt line word.q word.eq chars ∧ stringAt buf word.q = chars) ∧
    Line (tokens line) (cmd.strings buf) ∧
    ∀ argv ∈ cmd.execs, ∃ array, argvArray argv = some array ∧
      ∀ i ≤ argv.length, array[i]? = some argv[i]? := by
  obtain ⟨t, derives, spells, rfl⟩ := exists_spells plain accepted
  have strings := spells.nulterminate plain
  refine ⟨fun word among => ?_, by rwa [strings], fun argv among => ?_⟩
  · obtain ⟨chars, here⟩ := spells.wordAt word among
    exact ⟨chars, here, spells.reads plain word among here⟩
  · have few : argv.length < MAXARGS := by
      have short := derives.few (argv.map fun word => stringAt _ word.q) (by
        rw [← strings, Cmd.strings, execs_map]
        exact List.mem_map_of_mem among)
      rwa [List.length_map] at short
    refine ⟨_, storeArgv_eq argv [] few, fun i upTo => ?_⟩
    rcases Nat.lt_or_eq_of_le upTo with inside | rfl
    · rw [List.nil_append, List.getElem?_append_left (by rwa [List.length_map]), List.getElem?_map,
        List.getElem?_eq_getElem inside]
      rfl
    · rw [List.nil_append, List.getElem?_append_right (by rw [List.length_map]), List.length_map,
        Nat.sub_self, List.getElem?_replicate_of_lt (by omega),
        List.getElem?_eq_none (Nat.le_refl _)]

/-- `a>b`, where the word `a` ends at the operator. -/
theorem parsecmd_cuts_redirected : ∃ cmd buf, parsecmd (bytes ['a', '>', 'b']) = .ok (cmd, buf) ∧
    ∀ word ∈ cmd.words, ∃ chars, WordAt (bytes ['a', '>', 'b']) word.q word.eq chars ∧
      stringAt buf word.q = chars := by
  have accepted : parsecmd (bytes ['a', '>', 'b']) =
      .ok (.redir (.exec [⟨0, 1⟩]) ⟨2, 3⟩ (O_WRONLY ||| O_CREATE) 1, [97, 0, 98, 0]) := by
        decide +kernel
  exact ⟨_, _, accepted, (parsecmd_cuts _ (by decide) _ _ accepted).1⟩

end Xv6.Shell
