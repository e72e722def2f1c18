/-
**Console input is a faithful stream.**

Characters arrive, and any number of processes read: each interrupt and each stretch of
`consoleread` between two sleeps is one event, and a process that sleeps runs again only after a
wakeup. Beside the buffer runs what it is for: the stream `Tty`, the characters that the readers
have taken from it, and the results of their calls.
-/

import Xv6.Console.Input
import Xv6.Lib.Run

namespace Xv6

open Lib Function

/-- A call of `consoleread` that sleeps, or has not begun. -/
structure Reading where
  target : Nat
  n : Nat
  got : List UInt8

structure Console (P : Type) where
  input : Input
  reading : P → Option Reading
  /-- The process is in `sleep(&input.r, &input.lock)`. -/
  asleep : P → Bool
  tty : Tty
  /-- Who took which character of the stream. -/
  takes : List (P × UInt8)
  results : P → List Input.Result

inductive ConsoleOp (P : Type)
  /-- An interrupt with the characters that `getc` returns. -/
  | intr (cs : List UInt8)
  | read (p : P) (n : Nat)
  /-- The reader, awake, runs until it sleeps or returns. -/
  | run (p : P)

/-- The stream's characters that a call has consumed. -/
def Input.Result.consumed (res : Input.Result) : List UInt8 :=
  res.bytes ++ if res.eof then [ctrl 'D'] else []

namespace Console

variable {P : Type}

def boot (buf : Fin INPUT_BUF → UInt8) : Console P where
  input := ⟨buf, 0, 0, 0⟩
  reading := fun _ => none
  asleep := fun _ => false
  tty := ⟨[], [], 0⟩
  takes := []
  results := fun _ => []

/-- The characters that the call in progress has stored. -/
def got (y : Console P) (p : P) : List UInt8 := ((y.reading p).map Reading.got).getD []

/-- What the process has taken. -/
def takenBy [DecidableEq P] (y : Console P) (p : P) : List UInt8 :=
  (y.takes.filter fun take => take.1 = p).map Prod.snd

/-- One character of an interrupt. -/
def key (y : Console P) (c : UInt8) : Console P :=
  let after := y.input.consoleintr c
  { y with
    input := after.1, tty := y.tty.type c
    asleep := if after.2 then fun _ => false else y.asleep }

/-- **One event.** -/
def step [DecidableEq P] (y : Console P) : ConsoleOp P → Except Unit (Console P)
  | .intr cs => .ok (cs.foldl key y)
  | .read p n =>
    if (y.reading p).isNone ∧ 0 < n then .ok { y with
      reading := update y.reading p (some ⟨n, n, []⟩), asleep := update y.asleep p false }
    else .error ()
  | .run p =>
    match y.reading p, y.asleep p with
    | none, _ => .error ()
    | some _, true => .error ()
    | some call, false =>
      let (input, got, outcome) := y.input.consoleread call.target call.n call.got
      let consumed := (got ++ outcome.mark).drop call.got.length
      let y := { y with
        input, tty := { y.tty with taken := y.tty.taken + consumed.length }
        takes := y.takes ++ consumed.map fun c => (p, c) }
      match outcome with
      | .sleeps n => .ok { y with
          reading := update y.reading p (some ⟨call.target, n, got⟩), asleep :=
            update y.asleep p true }
      | .returns eof => .ok { y with
          reading := update y.reading p none
          results := update y.results p (y.results p ++ [⟨call.target, got, eof⟩]) }

/-- **The buffer keeps the stream**, and the readers have what was taken from it. -/
structure Faithful [DecidableEq P] (y : Console P) : Prop where
  keeps : y.input.Keeps y.tty
  order : y.takes.map Prod.snd = y.tty.committed.take y.tty.taken
  mine : ∀ p, y.takenBy p = (y.results p).flatMap Input.Result.consumed ++ y.got p
  midway : ∀ p call, y.reading p = some call → 0 < call.n ∧ Input.Midway call.target call.n call.got
  proper : ∀ p, ∀ res ∈ y.results p, res.Proper
  /-- No wakeup is lost. -/
  sleeps : ∀ p, y.asleep p = true → y.input.r = y.input.w

/-- **How a stretch of a call ends**: the process sleeps, and nothing that is committed is left; or
the call returns, where `Stops` says. -/
def Ended (y y' : Console P) (p : P) (call : Reading) : Prop :=
  y'.asleep p = true ∧ y'.input.r = y'.input.w ∨
  y'.reading p = none ∧ ∃ bytes eof, y'.results p = y.results p ++ [⟨call.target, bytes, eof⟩] ∧
    y'.input.Stops call.target bytes (.returns eof)

/-- The stream and what was taken from it only grow. -/
def Grows [DecidableEq P] (y : Console P) (e : ConsoleOp P) : Prop :=
  ∀ y', y.step e = .ok y' → y.tty.committed <+: y'.tty.committed ∧ y.takes <+: y'.takes

section Faithful

variable [DecidableEq P] {y y' : Console P} {e : ConsoleOp P}

theorem Faithful.key (faithful : y.Faithful) (c : UInt8) :
    (y.key c).Faithful ∧ y.tty.committed <+: (y.key c).tty.committed := by
  obtain ⟨keeps, taken, grows, quiet⟩ := faithful.keeps.consoleintr c
  refine ⟨⟨keeps, ?_, faithful.mine, faithful.midway, faithful.proper, fun q asleep => ?_⟩, grows⟩
  · obtain ⟨rest, whole⟩ := grows
    show y.takes.map Prod.snd = (y.tty.type c).committed.take (y.tty.type c).taken
    rw [taken, ← whole, List.take_append_of_le_length faithful.keeps.taken]
    exact faithful.order
  · have asleep' : (if (y.input.consoleintr c).2 then fun _ => false else y.asleep) q = true :=
      asleep
    cases woken : (y.input.consoleintr c).2 with
    | true =>
      rw [woken] at asleep'
      cases asleep'
    | false =>
      rw [woken] at asleep'
      have none' := faithful.keeps.shows.r_eq_w.mp (faithful.sleeps q asleep')
      refine keeps.shows.r_eq_w.mpr ?_
      rw [taken, quiet woken]
      exact none'

theorem Faithful.intr (faithful : y.Faithful) (cs : List UInt8) :
    (cs.foldl Console.key y).Faithful ∧ y.tty.committed <+: (cs.foldl Console.key y).tty.committed ∧
      (cs.foldl Console.key y).takes = y.takes := by
  induction cs generalizing y with
  | nil => exact ⟨faithful, List.prefix_rfl, rfl⟩
  | cons c cs ih =>
    obtain ⟨faithful', more⟩ := faithful.key c
    obtain ⟨faithful'', more', same⟩ := ih faithful'
    exact ⟨faithful'', more.trans more', same⟩

theorem Faithful.read (faithful : y.Faithful) {p : P} (free : y.reading p = none) {n : Nat}
    (some' : 0 < n) :
    Faithful { y with
      reading := update y.reading p (some ⟨n, n, []⟩), asleep := update y.asleep p false } := by
  refine ⟨faithful.keeps, faithful.order, fun q => ?_, fun q call here => ?_, faithful.proper,
    fun q asleep => ?_⟩
  · refine (faithful.mine q).trans (congrArg _ ?_)
    unfold got
    by_cases same : q = p
    · rw [same, free]
      simp only [update_self]
      rfl
    · simp only [update_of_ne same]
  · by_cases same : q = p
    · rw [same] at here
      simp only [update_self] at here
      cases here
      exact ⟨some', Nat.zero_add n, nofun⟩
    · simp only [update_of_ne same] at here
      exact faithful.midway q call here
  · by_cases same : q = p
    · rw [same] at asleep
      simp only [update_self] at asleep
      cases asleep
    · simp only [update_of_ne same] at asleep
      exact faithful.sleeps q asleep

theorem takenBy_run (y : Console P) (p q : P) (consumed : List UInt8) (input : Input) (tty : Tty)
    (reading : P → Option Reading) (asleep : P → Bool) (results : P → List Input.Result) :
    takenBy ⟨input, reading, asleep, tty, y.takes ++ consumed.map fun c => (p, c), results⟩ q =
      y.takenBy q ++ if q = p then consumed else [] := by
  unfold takenBy
  rw [List.filter_append, List.map_append]
  congr 1
  split_ifs with same
  · rw [List.filter_eq_self.mpr, List.map_map]
    · exact List.map_id consumed
    · intro take member
      obtain ⟨c, _, rfl⟩ := List.mem_map.mp member
      exact decide_eq_true same.symm
  · rw [List.filter_eq_nil_iff.mpr]
    · rfl
    · intro take member
      obtain ⟨c, _, rfl⟩ := List.mem_map.mp member
      exact fun here => same (of_decide_eq_true here).symm

/-- **A stretch of a call** of a process that is awake. -/
theorem Faithful.run (faithful : y.Faithful) {p : P} {call : Reading}
    (reads : y.reading p = some call) (awake : y.asleep p = false) :
    ∃ y', y.step (.run p) = .ok y' ∧ y'.Faithful ∧ y'.tty.committed = y.tty.committed ∧
      y.takes <+: y'.takes ∧ y.Ended y' p call := by
  obtain ⟨some', midway⟩ := faithful.midway p call reads
  have target : 0 < call.target := by
    have := midway.count
    omega
  obtain ⟨consumed, keeps, next, whole, fits⟩ := faithful.keeps.consoleread midway target
  have stops := y.input.consoleread_stops midway.count
  have mineBefore := faithful.mine p
  unfold got at mineBefore
  rw [reads] at mineBefore
  have order : (y.takes ++ consumed.map fun c => (p, c)).map Prod.snd =
      y.tty.committed.take (y.tty.taken + consumed.length) := by
    rw [List.map_append, List.map_map, faithful.order, List.take_add,
      ← List.prefix_iff_eq_take.mp next]
    exact congrArg _ (List.map_id consumed)
  -- With nothing committed the call sleeps at once.
  have idle : y.input.r = y.input.w → ∃ n, (y.input.consoleread call.target call.n call.got).2.2 =
      .sleeps n := by
    intro empty
    obtain ⟨n, more⟩ := Nat.exists_eq_succ_of_ne_zero some'.ne'
    rw [more, Nat.succ_eq_add_one, Input.consoleread, if_pos empty]
    exact ⟨_, rfl⟩
  unfold step
  simp only [reads, awake]
  rw [whole, List.drop_left]
  generalize y.input.consoleread call.target call.n call.got = out at keeps whole fits stops idle
  obtain ⟨input, got', outcome⟩ := out
  cases outcome with
  | sleeps n =>
    rw [show (Input.Outcome.sleeps n).mark = [] from rfl, List.append_nil] at whole
    refine ⟨_, rfl,
      ⟨keeps, order, fun q => ?_, fun q call' here => ?_, faithful.proper, fun _ _ => stops⟩,
      rfl, List.prefix_append _ _, .inl ⟨update_self .., stops⟩⟩
    · rw [takenBy_run]
      unfold got
      by_cases same : q = p
      · subst same
        rw [if_pos rfl, mineBefore, List.append_assoc]
        simp only [update_self]
        exact congrArg _ whole.symm
      · rw [if_neg same, List.append_nil, faithful.mine q]
        simp only [update_of_ne same]
        rfl
    · by_cases same : q = p
      · subst same
        simp only [update_self] at here
        cases here
        exact fits
      · simp only [update_of_ne same] at here
        exact faithful.midway q call' here
  | returns eof =>
    refine ⟨_, rfl, ⟨keeps, order, fun q => ?_, fun q call' here => ?_, fun q res member => ?_,
      fun q asleep => ?_⟩, rfl, List.prefix_append _ _,
      .inr ⟨update_self .., got', eof, update_self .., stops⟩⟩
    · rw [takenBy_run]
      unfold got
      by_cases same : q = p
      · subst same
        rw [if_pos rfl, mineBefore, List.append_assoc]
        simp only [update_self, List.flatMap_append, List.flatMap_cons, List.flatMap_nil,
          List.append_nil, Option.map_none, Option.getD_none]
        refine congrArg _ (whole.symm.trans ?_)
        cases eof <;> rfl
      · rw [if_neg same, List.append_nil, faithful.mine q]
        simp only [update_of_ne same]
        rfl
    · by_cases same : q = p
      · subst same
        simp only [update_self] at here
        cases here
      · simp only [update_of_ne same] at here
        exact faithful.midway q call' here
    · by_cases same : q = p
      · subst same
        simp only [update_self] at member
        rcases List.mem_append.mp member with old | new
        · exact faithful.proper q res old
        · rw [List.mem_singleton.mp new]
          exact fits
      · simp only [update_of_ne same] at member
        exact faithful.proper q res member
    · obtain ⟨n, absurdity⟩ := idle (faithful.sleeps q asleep)
      cases absurdity

theorem Faithful.step (faithful : y.Faithful) (taken : y.step e = .ok y') :
    y'.Faithful ∧ y.tty.committed <+: y'.tty.committed ∧ y.takes <+: y'.takes := by
  cases e with
  | intr cs =>
    cases taken
    obtain ⟨faithful', more, same⟩ := faithful.intr cs
    exact ⟨faithful', more, same ▸ List.prefix_rfl⟩
  | read p n =>
    unfold Console.step at taken
    simp only at taken
    split at taken
    · next enabled =>
      cases taken
      exact ⟨faithful.read (Option.isNone_iff_eq_none.mp enabled.1) enabled.2, List.prefix_rfl,
        List.prefix_rfl⟩
    · cases taken
  | run p =>
    have enabled := taken
    unfold Console.step at enabled
    simp only at enabled
    split at enabled
    · cases enabled
    · cases enabled
    · next call reads awake =>
      obtain ⟨y'', taken', faithful', same, more, _⟩ := faithful.run reads awake
      cases taken'.symm.trans taken
      exact ⟨faithful', same ▸ List.prefix_rfl, more⟩

theorem faithful_boot (buf : Fin INPUT_BUF → UInt8) : (boot buf : Console P).Faithful :=
  ⟨⟨Nat.zero_le _, ⟨rfl, rfl, Nat.zero_le _, rfl⟩, nofun⟩, rfl, fun _ => rfl, nofun, nofun, nofun⟩

end Faithful

end Console

/-- **Console input is a faithful line-edited stream.** In every state that interrupts and readers
lead to, in any order, the indices are in order, the buffer has the committed characters that were
not taken and the line being typed, and what the readers have taken is the committed stream so far:
each character once, in order, and by the call that returns it. A call returns nothing behind a
newline, and no character exactly if it has consumed a `C('D')`. A process sleeps only while nothing
is committed, and one that is awake runs until it has taken all that is committed or returns: at a
newline, at a `C('D')`, or with all it asked for. The committed stream only grows. -/
theorem console_stream {P : Type} [DecidableEq P] (buf : Fin INPUT_BUF → UInt8)
    (es : List (ConsoleOp P)) :
    Always Console.step (fun y => y.Faithful ∧
        (y.input.w - y.input.r).toNat + (y.input.e - y.input.w).toNat =
          (y.input.e - y.input.r).toNat ∧ (y.input.e - y.input.r).toNat ≤ INPUT_BUF ∧
        ∀ p call, y.reading p = some call → y.asleep p = false →
          ∃ y', y.step (.run p) = .ok y' ∧ y.Ended y' p call) (.boot buf) es ∧
      EachStep Console.step Console.Grows (.boot buf) es := by
  have always : Always Console.step Console.Faithful (.boot buf) es :=
    fun before _ m _ run => run_invariant (fun _ y => y.Faithful) (Console.faithful_boot buf)
      (fun _ _ _ _ faithful taken => (faithful.step taken).1) before m run
  refine ⟨fun before after m split run => ?_, fun before e after m _ split run _ y' taken => ?_⟩
  · have faithful := always before after m split run
    obtain ⟨first, second, third⟩ := faithful.keeps.shows.distances
    refine ⟨faithful, ?_, ?_, fun p call reads awake => ?_⟩
    · rw [first, second, third]
    · rw [third]
      exact faithful.keeps.shows.room
    · obtain ⟨y', taken, _, _, _, ended⟩ := faithful.run reads awake
      exact ⟨y', taken, ended⟩
  · exact ((always before (e :: after) m split run).step taken).2

/-- A process asks for ten characters and sleeps; `ax`, a backspace, `b` and a carriage return are
typed. -/
def lineEvents : List (ConsoleOp Unit) :=
  [.read () 10, .run (), .intr [97, 120], .intr [8, 98, 13], .run ()]

/-- **A line is read**: the process is woken, and its call returns `ab` and a newline. -/
theorem console_stream_line : ∃ y, lineEvents.foldlM Console.step (.boot fun _ => 0) = .ok y ∧
    y.results () = [⟨10, [97, 98, 10], false⟩] ∧ y.reading () = none ∧ y.Faithful := by
  obtain ⟨y, run, ends⟩ := exists_of_endsIn (x := lineEvents.foldlM Console.step (.boot fun _ => 0))
    (P := fun y => decide ((y.results ()).map (fun res => (res.target, res.bytes, res.eof)) =
      [(10, [97, 98, 10], false)] ∧ (y.reading ()).isNone)) (by decide +kernel)
  obtain ⟨results, idle⟩ := of_decide_eq_true ends
  have faithful := ((console_stream _ lineEvents).1 lineEvents [] y (List.append_nil _).symm run).1
  refine ⟨y, run, ?_, Option.isNone_iff_eq_none.mp idle, faithful⟩
  obtain ⟨res, only, same⟩ := List.map_eq_singleton_iff.mp results
  rw [only]
  cases res
  cases same
  rfl

end Xv6
