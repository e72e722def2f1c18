/-
**The console's input buffer: `consoleintr` and `consoleread`.**

`struct input` is a ring of `INPUT_BUF` characters with three indices that run on modulo `2 ^ 32`:
readers take characters at `r`, the lines up to `w` are committed, and the one being typed goes on
to `e`. `consoleintr` handles one character, and wakes the readers when it commits; `consoleread` is
the part of the call from the lock, or from the wakeup, to `sleep` or to the end.
-/

import Mathlib.Data.UInt
import Xv6.Lib.Ring
import Xv6.Str
import Xv6.Syscall.Pipe

namespace Xv6

open Lib Function

def INPUT_BUF : Nat := 128

instance : NeZero INPUT_BUF := ⟨by decide⟩

/-- `C(x)`: Control-x. -/
def ctrl (x : Char) : UInt8 := x.toUInt8 - '@'.toUInt8

/-- `input`, without its lock. -/
structure Input where
  buf : Fin INPUT_BUF → UInt8
  r : UInt32
  w : UInt32
  e : UInt32

namespace Input

/-- The loop for `C('U')`. -/
def killLine (s : Input) : Input :=
  if s.e ≠ s.w ∧ s.buf (ringIndex INPUT_BUF (s.e - 1)) ≠ newline then
    killLine { s with e := s.e - 1 }
  else s
termination_by (s.e - s.w).toNat
decreasing_by
  rename_i more
  have apart : s.e - s.w ≠ 0 := fun same => more.1 (sub_eq_zero.mp same)
  have positive : 0 < (s.e - s.w).toNat :=
    Nat.pos_of_ne_zero fun zero => apart (UInt32.toNat_inj.mp zero)
  show (s.e - 1 - s.w).toNat < (s.e - s.w).toNat
  rw [sub_right_comm,
    UInt32.toNat_sub_of_le _ _
    (show (1 : UInt32) ≤ s.e - s.w from UInt32.le_iff_toNat_le.mpr positive)]
  exact Nat.sub_lt positive Nat.one_pos

/-- The character is stored; the end of a line, `C('D')` and a full buffer commit, with
`wakeup(&input.r)`. -/
def insert (s : Input) (c : UInt8) : Input × Bool :=
  let s := { s with buf := update s.buf (ringIndex INPUT_BUF s.e) c, e := s.e + 1 }
  if c = newline ∨ c = ctrl 'D' ∨ s.e = s.r + .ofNat INPUT_BUF then ({ s with w := s.e }, true)
  else (s, false)

/-- `consoleintr` for one character, and whether it woke the readers. -/
def consoleintr (s : Input) (c : UInt8) : Input × Bool :=
  if c = ctrl 'P' then (s, false)
  else if c = ctrl 'U' then (s.killLine, false)
  else if c = ctrl 'H' ∨ c = 0x7f then
    (if s.e ≠ s.w then { s with e := s.e - 1 } else s, false)
  else if c ≠ 0 ∧ (s.e - s.r).toNat < INPUT_BUF then
    s.insert (if c = '\r'.toUInt8 then newline else c)
  else (s, false)

/-- How a call of `consoleread` goes on: it sleeps and still wants `n` characters, or it returns,
and may have consumed a `C('D')`. -/
inductive Outcome
  | sleeps (n : Nat)
  | returns (eof : Bool)

/-- What the call has consumed beside the characters it has stored. -/
def Outcome.mark : Outcome → List UInt8
  | .returns true => [ctrl 'D']
  | _ => []

/-- The loop of `consoleread`, which has stored `got` and wants `n` more characters. -/
def consoleread (s : Input) (target : Nat) : Nat → List UInt8 → Input × List UInt8 × Outcome
  | 0, got => (s, got, .returns false)
  | n + 1, got =>
    if s.r = s.w then (s, got, .sleeps (n + 1))
    else
      let c := s.buf (ringIndex INPUT_BUF s.r)
      let s := { s with r := s.r + 1 }
      if c = ctrl 'D' then
        if n + 1 < target then ({ s with r := s.r - 1 }, got, .returns false)
          else (s, got, .returns true)
      else if c = newline then (s, got ++ [c], .returns false)
      else s.consoleread target n (got ++ [c])

/-- **Where a call stops**: it sleeps when it has taken all that is committed; it returns when it
has consumed a `C('D')`, stored a newline or all it was asked for, or finds a `C('D')` that it
leaves. -/
def Stops (s : Input) (target : Nat) (got : List UInt8) : Outcome → Prop
  | .sleeps _ => s.r = s.w
  | .returns eof => eof = true ∨ got.getLast? = some newline ∨ got.length = target ∨
      s.r ≠ s.w ∧ s.buf (ringIndex INPUT_BUF s.r) = ctrl 'D'

theorem consoleread_stops (s : Input) {target n : Nat} {got : List UInt8}
    (count : got.length + n = target) :
    (s.consoleread target n got).1.Stops target (s.consoleread target n got).2.1
      (s.consoleread target n got).2.2 := by
  induction n generalizing s got with
  | zero => exact .inr (.inr (.inl count))
  | succ n ih =>
    unfold consoleread
    by_cases empty : s.r = s.w
    · rw [if_pos empty]
      exact empty
    rw [if_neg empty]
    simp only
    by_cases isEof : s.buf (ringIndex INPUT_BUF s.r) = ctrl 'D'
    · rw [if_pos isEof]
      by_cases later : n + 1 < target
      · rw [if_pos later, add_sub_cancel_right]
        exact .inr (.inr (.inr ⟨empty, isEof⟩))
      · rw [if_neg later]
        exact .inl rfl
    rw [if_neg isEof]
    by_cases isEnd : s.buf (ringIndex INPUT_BUF s.r) = newline
    · rw [if_pos isEnd, isEnd]
      exact .inr (.inl List.getLast?_concat)
    · rw [if_neg isEnd]
      refine ih _ ?_
      rw [List.length_append, List.length_singleton]
      omega

end Input

/-- **The stream that is typed**: the committed characters, the line behind them, and how many of
the committed ones have been read. -/
structure Tty where
  committed : List UInt8
  line : List UInt8
  taken : Nat

namespace Tty

/-- The characters in the buffer. -/
def stored (t : Tty) : Nat := t.committed.length - t.taken + t.line.length

/-- A character is appended; the end of a line, `C('D')` and a full buffer commit. -/
def insert (t : Tty) (c : UInt8) : Tty :=
  let t := { t with line := t.line ++ [c] }
  if c = newline ∨ c = ctrl 'D' ∨ t.stored = INPUT_BUF then
    { t with committed := t.committed ++ t.line, line := [] }
  else t

/-- **What a character does**: it edits the line, is dropped when the buffer is full, or is
appended. -/
def type (t : Tty) (c : UInt8) : Tty :=
  if c = ctrl 'P' ∨ c = 0 then t
  else if c = ctrl 'U' then { t with line := [] }
  else if c = ctrl 'H' ∨ c = 0x7f then { t with line := t.line.dropLast }
  else if t.stored < INPUT_BUF then t.insert (if c = '\r'.toUInt8 then newline else c)
  else t

end Tty

namespace Input

/-- **The buffer has the characters `unread`, committed, and `line`, being typed.** -/
structure Shows (s : Input) (unread line : List UInt8) : Prop where
  w : s.w = s.r + .ofNat unread.length
  e : s.e = s.r + .ofNat (unread.length + line.length)
  room : unread.length + line.length ≤ INPUT_BUF
  data : ring s.buf s.r (unread.length + line.length) = unread ++ line

section Shows

variable {s : Input} {unread line : List UInt8} {c : UInt8}

theorem divides : INPUT_BUF ∣ 2 ^ 32 := by decide

theorem count_eq {r : UInt32} {j k : Nat} (first : j ≤ INPUT_BUF) (second : k ≤ INPUT_BUF) :
    r + .ofNat j = r + .ofNat k ↔ j = k := by
  rw [add_right_inj]
  constructor
  · intro same
    have small : INPUT_BUF < 2 ^ 32 := by decide
    have numbers := congrArg UInt32.toNat same
    rwa [UInt32.toNat_ofNat_of_lt' (first.trans_lt small),
      UInt32.toNat_ofNat_of_lt' (second.trans_lt small)] at numbers
  · rintro rfl
    rfl

theorem distance (r : UInt32) {k : Nat} (few : k ≤ INPUT_BUF) : (r + .ofNat k - r).toNat = k := by
  rw [add_sub_cancel_left]
  exact UInt32.toNat_ofNat_of_lt' (few.trans_lt (by decide))

theorem Shows.e_eq_w (shows : s.Shows unread line) : s.e = s.w ↔ line = [] := by
  have room := shows.room
  rw [shows.e, shows.w, count_eq room (by omega), ← List.length_eq_zero_iff]
  omega

theorem Shows.r_eq_w (shows : s.Shows unread line) : s.r = s.w ↔ unread = [] := by
  have room := shows.room
  have zero : s.r = s.r + .ofNat 0 := (add_zero s.r).symm
  rw [shows.w, ← List.length_eq_zero_iff]
  conv_lhs => rw [zero]
  rw [add_assoc, show UInt32.ofNat 0 + UInt32.ofNat unread.length = UInt32.ofNat unread.length
    from zero_add _, count_eq (Nat.zero_le _) (by omega)]
  exact eq_comm

theorem Shows.distances (shows : s.Shows unread line) :
    (s.w - s.r).toNat = unread.length ∧ (s.e - s.w).toNat = line.length ∧
      (s.e - s.r).toNat = unread.length + line.length := by
  have room := shows.room
  refine ⟨?_, ?_, ?_⟩
  · rw [shows.w]
    exact distance s.r (by omega)
  · rw [shows.e, shows.w, UInt32.ofNat_add, ← add_assoc]
    exact distance _ (by omega)
  · rw [shows.e]
    exact distance s.r room

theorem Shows.backspace (shows : s.Shows unread (line ++ [c])) :
    Shows { s with e := s.e - 1 } unread line ∧ s.buf (ringIndex INPUT_BUF (s.e - 1)) = c := by
  obtain ⟨w, e, room, data⟩ := shows
  rw [List.length_append, List.length_singleton, ← Nat.add_assoc] at e room data
  have before : s.e - 1 = s.r + .ofNat (unread.length + line.length) := by
    rw [e, UInt32.ofNat_add, ← add_assoc]
    exact add_sub_cancel_right _ _
  have first : ring s.buf s.r (unread.length + line.length) = unread ++ line := by
    rw [← take_ring s.buf s.r (Nat.le_succ _), data, ← List.append_assoc, ← List.length_append,
      List.take_left]
  refine ⟨⟨w, before, Nat.le_of_succ_le room, first⟩, ?_⟩
  rw [before]
  have last := congrArg List.getLast? data
  rw [← List.append_assoc, List.getLast?_concat] at last
  unfold ring at last
  rw [List.range_succ, List.map_append, List.map_singleton, List.getLast?_concat] at last
  exact Option.some.inj last

theorem Shows.push (shows : s.Shows unread line) (room : unread.length + line.length < INPUT_BUF) :
    Shows { s with buf := update s.buf (ringIndex INPUT_BUF s.e) c, e := s.e + 1 } unread
      (line ++ [c]) := by
  obtain ⟨w, e, _, data⟩ := shows
  refine ⟨w, ?_, ?_, ?_⟩
  · show s.e + 1 = s.r + .ofNat (unread.length + (line ++ [c]).length)
    rw [e, List.length_append, List.length_singleton, ← Nat.add_assoc,
      UInt32.ofNat_add (_ + _), add_assoc]
    rfl
  · rw [List.length_append, List.length_singleton]
    omega
  · show ring (update s.buf (ringIndex INPUT_BUF s.e) c) s.r
      (unread.length + (line ++ [c]).length) = _
    rw [e, List.length_append, List.length_singleton, ← Nat.add_assoc,
      ring_push divides s.buf s.r room c, data, List.append_assoc]

theorem Shows.commit (shows : s.Shows unread line) :
    Shows { s with w := s.e } (unread ++ line) [] := by
  obtain ⟨w, e, room, data⟩ := shows
  rw [← List.length_append] at e room data
  exact ⟨e, e, room, data.trans (List.append_nil _).symm⟩

theorem Shows.killLine (shows : s.Shows unread line) (plain : newline ∉ line) :
    s.killLine.Shows unread [] := by
  induction line using List.reverseRecOn generalizing s with
  | nil =>
    rw [Input.killLine, if_neg fun more => more.1 (shows.e_eq_w.mpr rfl)]
    exact shows
  | append_singleton line c ih =>
    obtain ⟨rest, last⟩ := shows.backspace
    rw [List.mem_append, List.mem_singleton, not_or] at plain
    have more : s.e ≠ s.w := fun same => by
      have empty := shows.e_eq_w.mp same
      exact absurd empty (List.append_ne_nil_of_right_ne_nil _ (List.cons_ne_nil _ _))
    rw [Input.killLine, if_pos ⟨more, by rw [last]; exact fun same => plain.2 same.symm⟩]
    exact ih rest plain.1

theorem Shows.pop (shows : s.Shows (c :: unread) line) :
    s.buf (ringIndex INPUT_BUF s.r) = c ∧ Shows { s with r := s.r + 1 } unread line := by
  obtain ⟨w, e, room, data⟩ := shows
  have count : (c :: unread).length + line.length = unread.length + line.length + 1 := by
    rw [List.length_cons]
    omega
  have next : ∀ k, s.r + UInt32.ofNat (k + 1) = s.r + 1 + UInt32.ofNat k := fun k => by
    rw [Nat.add_comm, UInt32.ofNat_add, ← add_assoc]
    rfl
  rw [count] at e room data
  rw [ring_pop, List.cons_append] at data
  obtain ⟨first, rest⟩ := List.cons.inj data
  refine ⟨first, ?_, e.trans (next _), Nat.le_of_succ_le room, rest⟩
  rw [List.length_cons] at w
  exact w.trans (next _)

/-- **The `consoleread` of the file calls**, which is given the characters typed: this one stores
what that one stores of the committed ones, and returns where it gets to its end. -/
theorem Shows.consoleread (shows : s.Shows unread line) (target n : Nat) (got : List UInt8) :
    (s.consoleread target n got).2.1 = got ++ (consolereadLoop unread n).1 ∧
      ((consolereadLoop unread n).2 = true ↔
      ∃ eof, (s.consoleread target n got).2.2 = .returns eof) := by
  have eof : ctrl 'D' = 4 := by decide
  induction n generalizing s unread got with
  | zero =>
    rw [consolereadLoop, Input.consoleread]
    exact ⟨(List.append_nil _).symm, iff_of_true rfl ⟨false, rfl⟩⟩
  | succ n ih =>
    rw [Input.consoleread]
    cases unread with
    | nil =>
      rw [if_pos (shows.r_eq_w.mpr rfl), consolereadLoop]
      exact ⟨(List.append_nil _).symm, iff_of_false Bool.false_ne_true (by rintro ⟨_, ⟨⟩⟩)⟩
    | cons c unread =>
      obtain ⟨first, rest⟩ := shows.pop
      rw [if_neg (fun same => List.cons_ne_nil _ _ (shows.r_eq_w.mp same)), consolereadLoop]
      simp only [first, eof]
      by_cases isEof : c = 4
      · rw [if_pos isEof, if_pos isEof]
        split
        · exact ⟨(List.append_nil _).symm, iff_of_true rfl ⟨false, rfl⟩⟩
        · exact ⟨(List.append_nil _).symm, iff_of_true rfl ⟨true, rfl⟩⟩
      · rw [if_neg isEof, if_neg isEof]
        by_cases isEnd : c = newline
        · rw [if_pos isEnd, if_pos (show c = 10 from isEnd)]
          exact ⟨rfl, iff_of_true rfl ⟨false, rfl⟩⟩
        · rw [if_neg isEnd, if_neg (show ¬ c = 10 from isEnd)]
          obtain ⟨bytes, ends⟩ := ih rest (got ++ [c])
          exact ⟨bytes.trans (List.append_assoc _ _ _), ends⟩

end Shows

/-! ### The buffer has what is typed -/

section Typed

variable {s : Input} {t : Tty} {c : UInt8}

/-- The buffer has what is typed and not read. -/
structure Keeps (s : Input) (t : Tty) : Prop where
  taken : t.taken ≤ t.committed.length
  shows : s.Shows (t.committed.drop t.taken) t.line
  /-- What ends a line commits it. -/
  editing : ∀ c ∈ t.line, c ≠ newline ∧ c ≠ ctrl 'D'

theorem Keeps.stored (keeps : s.Keeps t) : (s.e - s.r).toNat = t.stored := by
  rw [keeps.shows.distances.2.2, List.length_drop]
  rfl

/-- What a character did to the buffer, it did to the stream, and readers are woken when it
committed. -/
structure Follows (after : Input × Bool) (t t' : Tty) : Prop where
  keeps : after.1.Keeps t'
  taken : t'.taken = t.taken
  grows : t.committed <+: t'.committed
  quiet : after.2 = false → t'.committed = t.committed

theorem Keeps.edited {t' : Tty} (keeps : s.Keeps t') (taken : t'.taken = t.taken)
    (same : t'.committed = t.committed) : Follows (s, false) t t' :=
  ⟨keeps, taken, same ▸ List.prefix_rfl, fun _ => same⟩

theorem Keeps.insert (keeps : s.Keeps t) (room : t.stored < INPUT_BUF) (c : UInt8) :
    Follows (s.insert c) t (t.insert c) := by
  obtain ⟨taken, shows, editing⟩ := keeps
  have few : (t.committed.drop t.taken).length + t.line.length < INPUT_BUF := by
    rw [List.length_drop]
    exact room
  have pushed := shows.push few (c := c)
  have full :
    s.e + 1 = s.r + .ofNat INPUT_BUF ↔ Tty.stored { t with line := t.line ++ [c] } = INPUT_BUF := by
    rw [show s.e + 1 = _ from pushed.e, count_eq pushed.room le_rfl, List.length_drop]
    exact Iff.rfl
  unfold Input.insert Tty.insert
  simp only [full]
  split_ifs with commits
  · refine ⟨⟨?_, ?_, fun _ member => absurd member List.not_mem_nil⟩, rfl, List.prefix_append _ _,
      Bool.noConfusion⟩
    · show t.taken ≤ (t.committed ++ (t.line ++ [c])).length
      rw [List.length_append]
      omega
    · show Shows _ ((t.committed ++ (t.line ++ [c])).drop t.taken) []
      rw [List.drop_append_of_le_length taken]
      exact pushed.commit
  · refine Keeps.edited ⟨taken, pushed, fun d member => ?_⟩ rfl rfl
    rcases List.mem_append.mp member with old | new
    · exact editing d old
    · rw [List.mem_singleton.mp new]
      exact ⟨fun is => commits (.inl is), fun is => commits (.inr (.inl is))⟩

theorem Keeps.backspace (keeps : s.Keeps t) :
    Keeps (if s.e ≠ s.w then { s with e := s.e - 1 } else s)
      { t with line := t.line.dropLast } := by
  obtain ⟨taken, shows, editing⟩ := keeps
  rcases List.eq_nil_or_concat t.line with empty | ⟨line, last, more⟩
  · rw [if_neg (not_not.mpr (shows.e_eq_w.mpr empty))]
    rw [empty] at shows editing ⊢
    exact ⟨taken, shows, editing⟩
  · rw [List.concat_eq_append] at more
    have some' : s.e ≠ s.w := fun same => by
      rw [shows.e_eq_w, more] at same
      exact absurd same (List.append_ne_nil_of_right_ne_nil _ (List.cons_ne_nil _ _))
    rw [if_pos some']
    rw [more] at shows editing ⊢
    rw [List.dropLast_concat]
    exact ⟨taken, shows.backspace.1, fun c member => editing c (List.mem_append_left _ member)⟩

theorem Keeps.consoleintr (keeps : s.Keeps t) (c : UInt8) :
    Follows (s.consoleintr c) t (t.type c) := by
  unfold Input.consoleintr Tty.type
  rw [keeps.stored]
  by_cases dump : c = ctrl 'P'
  · rw [if_pos dump, if_pos (.inl dump)]
    exact keeps.edited rfl rfl
  by_cases nul : c = 0
  · subst nul
    rw [if_neg (by decide), if_neg (by decide), if_neg (by decide), if_neg fun room => room.1 rfl,
      if_pos (.inr rfl)]
    exact keeps.edited rfl rfl
  rw [if_neg dump, if_neg (not_or.mpr ⟨dump, nul⟩)]
  by_cases kill : c = ctrl 'U'
  · rw [if_pos kill, if_pos kill]
    have plain : newline ∉ t.line := fun member => (keeps.editing _ member).1 rfl
    exact Keeps.edited ⟨keeps.taken, keeps.shows.killLine plain,
      fun _ member => absurd member List.not_mem_nil⟩ rfl rfl
  rw [if_neg kill, if_neg kill]
  by_cases back : c = ctrl 'H' ∨ c = 0x7f
  · rw [if_pos back, if_pos back]
    exact keeps.backspace.edited rfl rfl
  rw [if_neg back, if_neg back]
  by_cases room : t.stored < INPUT_BUF
  · rw [if_pos ⟨nul, room⟩, if_pos room]
    exact keeps.insert room _
  · rw [if_neg fun both => room both.2, if_neg room]
    exact keeps.edited rfl rfl

/-- **A call returns a part of a line**: nothing behind a newline, and nothing at all exactly if it
has consumed a `C('D')`. -/
structure Result where
  target : Nat
  bytes : List UInt8
  eof : Bool

structure Result.Proper (res : Result) : Prop where
  length : res.bytes.length ≤ res.target
  noEof : ctrl 'D' ∉ res.bytes
  oneLine : newline ∉ res.bytes.dropLast
  atEof : res.eof = true ↔ res.bytes = []

/-- A call that wants `n` of its `target` characters, and has none that ends it. -/
structure Midway (target n : Nat) (got : List UInt8) : Prop where
  count : got.length + n = target
  plain : ∀ c ∈ got, c ≠ newline ∧ c ≠ ctrl 'D'

def Outcome.Fits (target : Nat) (got : List UInt8) : Outcome → Prop
  | .sleeps n => 0 < n ∧ Midway target n got
  | .returns eof => Result.Proper ⟨target, got, eof⟩

theorem Midway.proper {target n : Nat} {got : List UInt8} (midway : Midway target n got)
    (some' : got ≠ []) : Result.Proper ⟨target, got, false⟩ := by
  refine ⟨?_, fun member => (midway.plain _ member).2 rfl,
    fun member => (midway.plain _ (List.mem_of_mem_dropLast member)).1 rfl, nofun,
    fun none' => absurd none' some'⟩
  have := midway.count
  show got.length ≤ target
  omega

theorem Keeps.consoleread {target n : Nat} {got : List UInt8} (keeps : s.Keeps t)
    (midway : Midway target n got) (some' : 0 < target) :
    ∃ consumed, (s.consoleread target n got).1.Keeps { t with taken := t.taken + consumed.length } ∧
      consumed <+: t.committed.drop t.taken ∧
      (s.consoleread target n got).2.1 ++ (s.consoleread target n got).2.2.mark = got ++ consumed ∧
      (s.consoleread target n got).2.2.Fits target (s.consoleread target n got).2.1 := by
  induction n generalizing s t got with
  | zero =>
    have full : got ≠ [] := by
      rintro rfl
      have := midway.count
      rw [List.length_nil] at this
      omega
    exact ⟨[], keeps, List.nil_prefix, rfl, midway.proper full⟩
  | succ n ih =>
    have count := midway.count
    unfold Input.consoleread
    by_cases empty : s.r = s.w
    · rw [if_pos empty]
      exact ⟨[], keeps, List.nil_prefix, rfl, Nat.succ_pos n, midway⟩
    rw [if_neg empty]
    obtain ⟨c, rest, unread⟩ :=
      List.exists_cons_of_ne_nil fun none' => empty (keeps.shows.r_eq_w.mpr none')
    obtain ⟨taken, shows, editing⟩ := keeps
    rw [unread] at shows
    obtain ⟨first, shows'⟩ := shows.pop
    have here : t.taken < t.committed.length := by
      have length := congrArg List.length unread
      rw [List.length_drop, List.length_cons] at length
      omega
    have after : t.committed.drop (t.taken + 1) = rest := by
      rw [← List.drop_drop, unread]
      rfl
    have keeps' : Keeps { s with r := s.r + 1 } { t with taken := t.taken + 1 } :=
      ⟨here, by rw [after]; exact shows', editing⟩
    have one : [c] <+: t.committed.drop t.taken := by
      rw [unread]
      exact List.prefix_append [c] rest
    simp only [first]
    by_cases isEof : c = ctrl 'D'
    · rw [if_pos isEof]
      by_cases later : n + 1 < target
      · rw [if_pos later, add_sub_cancel_right]
        have some'' : got ≠ [] := by
          rintro rfl
          rw [List.length_nil] at count
          omega
        refine ⟨[], ⟨taken, ?_, editing⟩, List.nil_prefix, rfl, midway.proper some''⟩
        show Shows s (t.committed.drop t.taken) t.line
        rw [unread]
        exact shows
      · rw [if_neg later]
        have none' : got = [] := List.length_eq_zero_iff.mp (by omega)
        subst none'
        refine ⟨[c], keeps', one, ?_, Nat.zero_le _, List.not_mem_nil, List.not_mem_nil,
          iff_of_true rfl rfl⟩
        rw [isEof]
        rfl
    rw [if_neg isEof]
    by_cases isEnd : c = newline
    · rw [if_pos isEnd]
      refine ⟨[c], keeps', one, List.append_nil _, ?_, ?_, ?_, nofun, fun none' => ?_⟩
      · show (got ++ [c]).length ≤ target
        rw [List.length_append, List.length_singleton]
        omega
      · intro member
        rcases List.mem_append.mp member with old | new
        · exact (midway.plain _ old).2 rfl
        · exact isEof (List.mem_singleton.mp new).symm
      · rw [List.dropLast_concat]
        exact fun member => (midway.plain _ member).1 rfl
      · exact absurd none' (List.append_ne_nil_of_right_ne_nil _ (List.cons_ne_nil _ _))
    rw [if_neg isEnd]
    have midway' : Midway target n (got ++ [c]) := by
      refine ⟨?_, fun d member => ?_⟩
      · rw [List.length_append, List.length_singleton]
        omega
      · rcases List.mem_append.mp member with old | new
        · exact midway.plain d old
        · rw [List.mem_singleton.mp new]
          exact ⟨isEnd, isEof⟩
    obtain ⟨consumed, keeps'', more, whole, fits⟩ := ih keeps' midway'
    refine ⟨c :: consumed, ?_, ?_, ?_, fits⟩
    · rw [List.length_cons, Nat.add_comm consumed.length, ← Nat.add_assoc]
      exact keeps''
    · rw [unread]
      refine List.cons_prefix_cons.mpr ⟨rfl, ?_⟩
      rw [← after]
      exact more
    · rw [whole, List.append_assoc]
      rfl

end Typed

end Input

end Xv6
