/-
**Pids and the history of the process table.**

As long as pids do not wrap around, the pid of a process is its own for all times, so that the
history can speak of processes by their pids. `Recorded` says how the table and the history fit
together; from it follows that every `wait` is for a child of its own.
-/

import Xv6.Proc.Family

namespace Xv6

/-- `parent` created `child`, or is init and the process that created it exited. -/
def Parentage (h : List Happening) (parent child : BitVec 32) : Prop :=
  .forked parent child ∈ h ∨ parent = 1 ∧ ∃ creator, .forked creator child ∈ h ∧ .exited creator ∈ h

theorem Parentage.cons {h : List Happening} {parent child : BitVec 32}
    (past : Parentage h parent child) (e : Happening) : Parentage (e :: h) parent child := by
  rcases past with forked | ⟨init, creator, forked, exited⟩
  · exact .inl (.tail _ forked)
  · exact .inr ⟨init, creator, .tail _ forked, .tail _ exited⟩

/-- **Every wait is for a process of its own**: the child exited before, no other wait returned it,
and the process that waits is the parent. -/
def WaitsOnce (h : List Happening) : Prop :=
  ∀ later parent child earlier, h = later ++ .waited parent child :: earlier →
    .exited child ∈ earlier ∧ (∀ other, .waited other child ∉ earlier) ∧
    Parentage earlier parent child

theorem WaitsOnce.cons {h : List Happening} {e : Happening} (once : WaitsOnce h)
    (new : ∀ parent child, e = .waited parent child →
      .exited child ∈ h ∧ (∀ other, .waited other child ∉ h) ∧ Parentage h parent child) :
    WaitsOnce (e :: h) := by
  intro later parent child earlier split
  cases later with
  | nil =>
    cases split
    exact new parent child rfl
  | cons _ later =>
    cases split
    exact once later parent child earlier rfl

namespace Ptable

variable {ι : Type} {s t : Ptable ι} [DecidableEq ι]

/-! ### Pids -/

/-- The processes have pids of their own, none above the last one assigned. -/
structure Numbered (s : Ptable ι) : Prop where
  next : s.nextpid = BitVec.ofNat 32 (s.created + 1)
  range : ∀ i, (s.proc i).state ≠ .UNUSED → (s.proc i).pid.toNat ≤ s.created
  distinct : ∀ i j, (s.proc i).state ≠ .UNUSED → (s.proc j).state ≠ .UNUSED →
    (s.proc i).pid = (s.proc j).pid → i = j
  init : (s.proc initproc).pid = 1

omit [DecidableEq ι] in
theorem Numbered.congr (numbered : s.Numbered) (nextpid : t.nextpid = s.nextpid)
    (created : t.created = s.created) (pid : ∀ i, (t.proc i).state ≠ .UNUSED →
      (s.proc i).state ≠ .UNUSED ∧ (t.proc i).pid = (s.proc i).pid)
    (init : (t.proc initproc).pid = (s.proc initproc).pid) : t.Numbered where
  next := by rw [nextpid, created, numbered.next]
  range i live := by
    rw [(pid i live).2, created]
    exact numbered.range i (pid i live).1
  distinct i j live live' same := by
    rw [(pid i live).2, (pid j live').2] at same
    exact numbered.distinct i j (pid i live).1 (pid j live').1 same
  init := init.trans numbered.init

omit [DecidableEq ι] in
theorem Numbered.toNat_nextpid (numbered : s.Numbered) (small : s.created + 1 < 2 ^ 31) :
    s.nextpid.toNat = s.created + 1 := by
  rw [numbered.next, BitVec.toNat_ofNat, Nat.mod_eq_of_lt (by omega)]

theorem Numbered.move (numbered : s.Numbered) (family : s.Family) (m : s.Move t)
    (small : t.created < 2 ^ 31) : t.Numbered := by
  have init := family.init
  cases m with
  | nudge n =>
    have state := n.state
    exact numbered.congr n.nextpid n.created (by grind [n.pid]) (n.pid _)
  | run idle runnable => exact numbered.congr rfl rfl (by grind [resumed]) (by grind [resumed])
  | giveUp current running state => exact numbered.congr rfl rfl (by grind) (by grind)
  | @create i np p running user unused entry =>
    have fresh := numbered.toNat_nextpid small
    have entries := create_entries running unused entry
    obtain ⟨next, range, distinct, one⟩ := numbered
    constructor
    · show s.nextpid + 1 = _
      rw [next]
      show _ = BitVec.ofNat 32 (s.created + 1 + 1)
      rw [BitVec.ofNat_add (s.created + 1)]
      rfl
    · intro j live
      show _ ≤ s.created + 1
      grind
    · grind
    · grind
  | fail running task embryo orphan =>
    exact numbered.congr rfl rfl (by grind [forkFail]) (by grind [forkFail])
  | copy running task embryo orphan =>
    exact numbered.congr rfl rfl (by grind [forkCopy]) (by grind [forkCopy])
  | start running task embryo child =>
    exact numbered.congr rfl rfl (by grind [forkReturn]) (by grind [forkReturn])
  | exit current running user other entry => exact numbered.congr rfl rfl (by grind) (by grind)
  | reap running user child zombie =>
    exact numbered.congr rfl rfl (by grind [Ptable.reap]) (by grind [Ptable.reap])

/-! ### What was recorded -/

/-- What the history says of the processes in the table. -/
structure Recorded (s : Ptable ι) : Prop where
  zombie : ∀ i, (s.proc i).state = .ZOMBIE → .exited (s.proc i).pid ∈ s.history
  origin : ∀ i q, (s.proc i).state ≠ .EMBRYO → (s.proc i).parent = some q →
    Parentage s.history (s.proc q).pid (s.proc i).pid
  reaped : ∀ parent child, .waited parent child ∈ s.history → child.toNat ≤ s.created
  gone : ∀ parent child, .waited parent child ∈ s.history →
    ∀ i, (s.proc i).state ≠ .UNUSED → (s.proc i).pid ≠ child
  waits : WaitsOnce s.history

omit [DecidableEq ι] in
theorem Recorded.congr (recorded : s.Recorded) (history : t.history = s.history)
    (created : t.created = s.created) (pid : ∀ i, (t.proc i).pid = (s.proc i).pid)
    (state : ∀ i, (t.proc i).state = .ZOMBIE → (s.proc i).state = .ZOMBIE)
    (live : ∀ i, (t.proc i).state ≠ .UNUSED → (s.proc i).state ≠ .UNUSED)
    (parent : ∀ i q, (t.proc i).state ≠ .EMBRYO → (t.proc i).parent = some q →
      (s.proc i).state ≠ .EMBRYO ∧ (s.proc i).parent = some q) : t.Recorded := by
  obtain ⟨zombie, origin, reaped, gone, waits⟩ := recorded
  constructor
  · intro i dead
    rw [history, pid]
    exact zombie i (state i dead)
  · intro i q born child
    rw [history, pid, pid]
    exact origin i q (parent i q born child).1 (parent i q born child).2
  · rw [history, created]
    exact reaped
  · intro w c past i alive
    rw [pid]
    exact gone w c (history ▸ past) i (live i alive)
  · rw [history]
    exact waits

omit [DecidableEq ι] in
theorem Recorded.create (recorded : s.Recorded) (family : s.Family) {i np : Pslot} {p : Proc}
    (fresh : s.nextpid.toNat = s.created + 1) (running : (s.proc i).state = .RUNNING)
    (unused : (s.proc np).state = .UNUSED) (entry : p = { s.proc i with task := .forking np }) :
    ((s.allocproc np).setProc i p).Recorded := by
  have entries := create_entries running unused entry
  obtain ⟨zombie, origin, reaped, gone, waits⟩ := recorded
  have active := family.parent
  constructor
  · intro j dead
    show _ ∈ s.history
    grind
  · intro j q born child
    show Parentage s.history _ _
    grind
  · intro w c past
    exact Nat.le_succ_of_le (reaped w c past)
  · intro w c (past : .waited w c ∈ s.history)
    have below := reaped w c past
    grind
  · exact waits

omit [DecidableEq ι] in
theorem Recorded.start (recorded : s.Recorded) {i np : Pslot} (embryo : (s.proc np).state = .EMBRYO)
    (child : (s.proc np).parent = some i) : (s.forkReturn i np).Recorded := by
  have history : (s.forkReturn i np).history =
      .forked (s.proc i).pid (s.proc np).pid :: s.history := by grind [forkReturn, record]
  have pid : ∀ j, ((s.forkReturn i np).proc j).pid = (s.proc j).pid := by grind [forkReturn]
  have parent : ∀ j, ((s.forkReturn i np).proc j).parent = (s.proc j).parent := by
    grind [forkReturn]
  have state : ∀ j, j ≠ np → ((s.forkReturn i np).proc j).state = (s.proc j).state := by
    grind [forkReturn]
  have started : ((s.forkReturn i np).proc np).state ≠ .ZOMBIE := by grind [forkReturn]
  obtain ⟨zombie, origin, reaped, gone, waits⟩ := recorded
  constructor
  · grind
  · intro j q born child'
    rw [parent] at child'
    rw [history, pid, pid]
    by_cases new : j = np
    · rw [new, child] at child'
      cases child'
      rw [new]
      exact .inl (.head _)
    · exact (origin j q (by rwa [← state j new]) child').cons _
  · grind [forkReturn, record]
  · grind
  · rw [history]
    refine waits.cons fun _ _ absurdity => ?_
    cases absurdity

theorem Recorded.exit (recorded : s.Recorded) (family : s.Family) (numbered : s.Numbered) {c : ι}
    {i : Pslot} {p : Proc} (running : (s.proc i).state = .RUNNING) (other : i ≠ initproc)
    (entry : p = { (s.abandon i).proc i with state := .ZOMBIE }) :
    ((((s.abandon i).setProc i p).record (.exited (s.proc i).pid)).sched c).Recorded := by
  have pid : ∀ j, (((s.abandon i).setProc i p).proc j).pid = (s.proc j).pid := by grind
  have parent : ∀ j, (((s.abandon i).setProc i p).proc j).parent =
      if (s.proc j).parent = some i then some initproc else (s.proc j).parent := by grind
  have state : ∀ j, (((s.abandon i).setProc i p).proc j).state =
      if j = i then .ZOMBIE else (s.proc j).state := by grind
  obtain ⟨zombie, origin, reaped, gone, waits⟩ := recorded
  have init := family.init
  constructor
  · intro j dead
    show _ ∈ .exited (s.proc i).pid :: s.history
    grind
  · intro j q born child
    show Parentage (.exited (s.proc i).pid :: s.history) (((s.abandon i).setProc i p).proc q).pid
      (((s.abandon i).setProc i p).proc j).pid
    replace child : (((s.abandon i).setProc i p).proc j).parent = some q := child
    rw [parent] at child
    rw [pid, pid]
    by_cases abandoned : (s.proc j).parent = some i
    · rw [if_pos abandoned] at child
      cases child
      refine .inr ⟨numbered.init, (s.proc i).pid, ?_, .head _⟩
      rcases origin j i (by grind) abandoned with forked | ⟨one, _⟩
      · exact .tail _ forked
      · have same :=
          numbered.distinct i initproc (by grind) (by grind) (one.trans numbered.init.symm)
        exact absurd same other
    · rw [if_neg abandoned] at child
      exact (origin j q (by grind) child).cons _
  · intro w c past
    replace past : .waited w c ∈ .exited (s.proc i).pid :: s.history := past
    show _ ≤ s.created
    grind
  · intro w c past
    replace past : .waited w c ∈ .exited (s.proc i).pid :: s.history := past
    grind
  · exact waits.cons fun _ _ absurdity => nomatch absurdity

omit [DecidableEq ι] in
theorem Recorded.reap (recorded : s.Recorded) (family : s.Family) (numbered : s.Numbered)
    {i z : Pslot} (child : (s.proc z).parent = some i) (zombie : (s.proc z).state = .ZOMBIE) :
    (s.reap i z).Recorded := by
  have history : (s.reap i z).history = .waited (s.proc i).pid (s.proc z).pid :: s.history := by
    grind [Ptable.reap, record]
  have active := family.parent
  have other : i ≠ z := by grind
  have entries : ∀ j, j ≠ z → ((s.reap i z).proc j).pid = (s.proc j).pid ∧
      ((s.reap i z).proc j).state = (s.proc j).state ∧
      ((s.reap i z).proc j).parent = (s.proc j).parent := by grind [Ptable.reap]
  have freed : ((s.reap i z).proc z).state = .UNUSED ∧ ((s.reap i z).proc z).parent = none := by
    grind [Ptable.reap]
  obtain ⟨dead, origin, reaped, gone, waits⟩ := recorded
  constructor
  · grind
  · intro j q born child'
    have kept : j ≠ z := by grind
    obtain ⟨pid, state, parent⟩ := entries j kept
    rw [parent] at child'
    have kept' : q ≠ z := by grind
    rw [history, pid, (entries q kept').1]
    exact (origin j q (by rwa [← state]) child').cons _
  · intro w c past
    have last := numbered.range z (by grind)
    show _ ≤ s.created
    grind
  · intro w c past j live
    have kept : j ≠ z := by grind
    rw [history] at past
    cases past with
    | head _ =>
      rw [(entries j kept).1]
      intro same
      exact kept (numbered.distinct j z (by grind) (by grind) same)
    | tail _ past =>
      rw [(entries j kept).1]
      exact gone w c past j (by grind)
  · rw [history]
    refine waits.cons fun _ _ same => ?_
    cases same
    exact ⟨dead z zombie, fun w past => gone w _ past z (by grind) rfl, origin z i (by grind) child⟩

theorem Recorded.move (recorded : s.Recorded) (family : s.Family) (numbered : s.Numbered)
    (m : s.Move t) (small : t.created < 2 ^ 31) : t.Recorded := by
  cases m with
  | nudge n =>
    have state := n.state
    have parent := n.parent
    exact recorded.congr n.history n.created n.pid (by grind) (by grind) (by grind)
  | run idle runnable =>
    exact recorded.congr rfl rfl (by grind [resumed]) (by grind [resumed]) (by grind [resumed])
      (by grind [resumed])
  | giveUp current running state =>
    exact recorded.congr rfl rfl (by grind) (by grind) (by grind) (by grind)
  | create running user unused entry =>
    exact recorded.create family (numbered.toNat_nextpid small) running unused entry
  | fail running task embryo orphan =>
    exact recorded.congr rfl rfl (by grind [forkFail]) (by grind [forkFail]) (by grind [forkFail])
      (by grind [forkFail])
  | copy running task embryo orphan =>
    exact recorded.congr rfl rfl (by grind [forkCopy]) (by grind [forkCopy]) (by grind [forkCopy])
      (by grind [forkCopy])
  | start running task embryo child => exact recorded.start embryo child
  | exit current running user other noEmbryo entry =>
    exact recorded.exit family numbered running other entry
  | reap running user child zombie => exact recorded.reap family numbered child zombie

end Ptable

end Xv6
