/-
**Pipes are byte streams.**

The bytes stored so far are the bytes returned so far and then the bytes in the pipe, whatever the
counters are modulo `2 ^ 32`. What call `id` of `pipewrite` stored so far is the beginning of its
buffer up to the byte it is at, since no two calls have one number.
-/

import Xv6.Sync.Pipe

namespace Xv6

open Lib Function

namespace PipeSys

variable {ι : Type}

/-- The bytes that call `id` of `pipewrite` stored. -/
def storedBy (s : PipeSys ι) (id : Nat) : List UInt8 :=
  (s.stored.filter fun x => x.1 = id).map Prod.snd

/-- The first `n` bytes of a buffer. -/
def bytesOf (addr : Nat → UInt8) (n : Nat) : List UInt8 := (List.range n).map addr

/-- Process `i` is in call `id` of `pipewrite` and stored the bytes up to `j`. -/
structure Pending (s : PipeSys ι) (i : ι) (id : Nat) (addr : Nat → UInt8) (n : Int) (j : Nat) :
    Prop where
  begun : id < s.calls
  inside : j ≤ n.toNat
  stored : s.storedBy id = bytesOf addr j
  running : ∀ w ∈ s.written, w.id ≠ id
  alone : ∀ i', i' ≠ i → ∀ addr n j, s.call i' ≠ .write id addr n j

/-- A call of `pipewrite` that returned stored its bytes, or the first of them. -/
structure Finished (s : PipeSys ι) (w : PipeWrite) : Prop where
  begun : w.id < s.calls
  result : w.result = w.n ∧ s.storedBy w.id = bytesOf w.addr w.n.toNat ∨
    w.result = -1 ∧ ∃ j ≤ w.n.toNat, s.storedBy w.id = bytesOf w.addr j

/-- **The bytes in the pipe are those stored and not returned.** -/
structure Stream (s : PipeSys ι) : Prop where
  fits : s.pipe.count ≤ PIPESIZE
  bytes : s.stored.map Prod.snd = s.returned ++ s.pipe.contents
  begun : ∀ x ∈ s.stored, x.1 < s.calls
  pending : ∀ i id addr n j, s.call i = .write id addr n j → s.Pending i id addr n j
  finished : ∀ w ∈ s.written, s.Finished w
  distinct : (s.written.map PipeWrite.id).Nodup

variable {s t : PipeSys ι} {i : ι} {id : Nat} {addr : Nat → UInt8} {n : Int} {j k : Nat}

theorem bytesOf_add (addr : Nat → UInt8) (j m : Nat) :
    bytesOf addr (j + m) = bytesOf addr j ++ (List.range' j m).map addr := by
  have split := @List.range'_append_1 0 j m
  rw [Nat.zero_add] at split
  unfold bytesOf
  rw [List.range_eq_range', List.range_eq_range', ← List.map_append, split]

theorem bytesOf_prefix (addr : Nat → UInt8) (le : j ≤ k) : bytesOf addr j <+: bytesOf addr k := by
  obtain ⟨m, rfl⟩ := Nat.exists_eq_add_of_le le
  rw [bytesOf_add]
  exact List.prefix_append _ _

theorem storedBy_storing (s : PipeSys ι) (id : Nat) (addr : Nat → UInt8) (j k : Nat) (pipe : Pipe) :
    (s.storing id addr j k pipe).storedBy id = s.storedBy id ++
    (List.range' j (k - j)).map addr := by
  simp [storedBy, storing, comp_def, List.filter_map]

theorem storedBy_storing_of_ne (s : PipeSys ι) (addr : Nat → UInt8) (j k : Nat) (pipe : Pipe)
    {other : Nat} (apart : other ≠ id) :
    (s.storing id addr j k pipe).storedBy other = s.storedBy other := by
  simp [storedBy, storing, comp_def, List.filter_map, apart.symm]

theorem storedBy_fresh (begun : ∀ x ∈ s.stored, x.1 < id) : s.storedBy id = [] := by
  simp only [storedBy, List.map_eq_nil_iff, List.filter_eq_nil_iff, decide_eq_true_eq]
  exact fun x member same => (begun x member).ne same

theorem Stream.quiet (stream : s.Stream) (fits : t.pipe.count ≤ PIPESIZE)
    (bytes : t.returned ++ t.pipe.contents = s.returned ++ s.pipe.contents)
    (calls : s.calls ≤ t.calls) (stored : t.stored = s.stored) (written : t.written = s.written)
    (call : ∀ i id addr n j, t.call i = .write id addr n j → s.call i = .write id addr n j) :
    t.Stream := by
  have same : ∀ id, t.storedBy id = s.storedBy id := fun id => by rw [storedBy, stored, storedBy]
  refine ⟨fits, ?_, fun x member => ?_, fun i id addr n j here => ?_, fun w member => ?_, ?_⟩
  · rw [bytes, stored, stream.bytes]
  · exact (stream.begun x (stored ▸ member)).trans_le calls
  · have pending := stream.pending i id addr n j (call _ _ _ _ _ here)
    refine ⟨pending.begun.trans_le calls, pending.inside, (same id).trans pending.stored, ?_, ?_⟩
    · exact written ▸ pending.running
    · exact fun i' other addr n j here' => pending.alone i' other addr n j (call _ _ _ _ _ here')
  · have finished := stream.finished w (written ▸ member)
    refine ⟨finished.begun.trans_le calls, ?_⟩
    rw [same]
    exact finished.result
  · rw [written]
    exact stream.distinct

theorem Stream.setProc (stream : s.Stream) (proc : ι → Proc) : { s with proc := proc }.Stream :=
  stream.quiet stream.fits rfl le_rfl rfl rfl fun _ _ _ _ _ => id

theorem Stream.begin (stream : s.Stream) (i : ι) (addr : Nat → UInt8) (n : Int) :
    { s with calls := s.calls + 1 }.Stream ∧
      { s with calls := s.calls + 1 }.Pending i s.calls addr n 0 := by
  refine ⟨stream.quiet stream.fits rfl (Nat.le_succ _) rfl rfl fun _ _ _ _ _ => id, ?_⟩
  refine ⟨Nat.lt_succ_self _, Nat.zero_le _, storedBy_fresh stream.begun, fun w member => ?_, ?_⟩
  · exact (stream.finished w member).begun.ne
  · exact fun i' _ addr n j here => (stream.pending i' _ addr n j here).begun.ne rfl

theorem Stream.pipeclose (stream : s.Stream) (writable : Bool) : (s.pipeclose writable).Stream := by
  unfold PipeSys.pipeclose
  split <;> exact stream.quiet stream.fits rfl le_rfl rfl rfl fun _ _ _ _ _ => id

variable [DecidableEq ι]

theorem Stream.goto (stream : s.Stream) (i : ι) (call : PipeCall)
    (idle : ∀ id addr n j, call ≠ .write id addr n j) : (s.goto i call).Stream := by
  refine stream.quiet stream.fits rfl le_rfl rfl rfl fun i' id addr n j => ?_
  exact (forall_update_iff s.call
    fun i' call => call = .write id addr n j → s.call i' = .write id addr n j).mpr
      ⟨fun here => absurd here (idle id addr n j), fun _ _ here => here⟩ i'

theorem Stream.piperead (stream : s.Stream) (i : ι) (n : Int) : (s.piperead i n).Stream := by
  unfold PipeSys.piperead
  split
  · split
    · exact stream.goto i .outside nofun
    · exact (stream.goto i (.read n) nofun).setProc _
  · obtain ⟨bytes, rest, _⟩ := s.pipe.readLoop_spec n.toNat
    refine Stream.goto ?_ i .outside nofun
    refine stream.quiet ((Pipe.count_readLoop_le _ _).trans stream.fits) ?_ le_rfl rfl rfl
      fun _ _ _ _ _ => id
    show s.returned ++ (s.pipe.readLoop n.toNat).1 ++ (s.pipe.readLoop n.toNat).2.contents = _
    rw [bytes, rest, List.append_assoc, List.take_append_drop]

theorem Stream.fill (stream : s.Stream) (pending : s.Pending i id addr n j) {pipe : Pipe}
    (filled : s.pipe.fill addr j (n.toNat - j) = (k, pipe)) :
    ((s.storing id addr j k pipe).goto i (.write id addr n k)).Stream := by
  obtain ⟨stop, bytes, _⟩ := Pipe.fill_spec addr j (n.toNat - j) stream.fits
  have count := Pipe.count_fill addr j (n.toNat - j) stream.fits
  rw [filled] at stop bytes count
  dsimp only at stop bytes count
  have inside := pending.inside
  have fits := stream.fits
  obtain ⟨m, rfl⟩ : ∃ m, k = j + m := ⟨_, stop⟩
  rw [← Nat.add_left_cancel stop] at bytes count
  have behind : j + m - j = m := Nat.add_sub_cancel_left j m
  have apart : ∀ {i' id' addr' n' j'}, i' ≠ i → s.call i' = .write id' addr' n' j' → id' ≠ id := by
    rintro i' id' addr' n' j' other here rfl
    exact pending.alone i' other _ _ _ here
  refine ⟨by change pipe.count ≤ _; omega, ?_, ?_, ?_, ?_, stream.distinct⟩
  · show (s.stored ++ _).map Prod.snd = s.returned ++ pipe.contents
    rw [List.map_append, stream.bytes, bytes, behind, List.append_assoc, List.map_map]
    rfl
  · intro x member
    rcases List.mem_append.mp member with old | new
    · exact stream.begun x old
    · obtain ⟨_, _, rfl⟩ := List.mem_map.mp new
      exact pending.begun
  · intro i' id' addr' n' j' here
    by_cases mine : i' = i
    · subst mine
      have same := (update_self i' _ s.call).symm.trans here
      cases same
      refine ⟨pending.begun, by omega, ?_, pending.running, fun i' other addr n j here' => ?_⟩
      · rw [bytesOf_add, ← pending.stored]
        have := s.storedBy_storing id addr j (j + m) pipe
        rw [behind] at this
        exact this
      · exact pending.alone i' other _ _ _ ((update_of_ne other _ _).symm.trans here')
    · have before := (update_of_ne mine _ _).symm.trans here
      have other := stream.pending i' id' addr' n' j' before
      refine ⟨other.begun, other.inside, ?_, other.running,
        fun i'' third addr'' n'' j'' here' => ?_⟩
      · exact (s.storedBy_storing_of_ne addr j (j + m) pipe (apart mine before)).trans other.stored
      · by_cases mine' : i'' = i
        · subst mine'
          have same := (update_self i'' _ s.call).symm.trans here'
          cases same
          exact apart mine before rfl
        · exact other.alone i'' third _ _ _ ((update_of_ne mine' _ _).symm.trans here')
  · intro w member
    have finished := stream.finished w member
    refine ⟨finished.begun, ?_⟩
    have same := s.storedBy_storing_of_ne addr j (j + m) pipe (pending.running w member)
    change w.result = w.n ∧ (s.storing id addr j (j + m) pipe).storedBy w.id = _ ∨
      w.result = -1 ∧ ∃ j' ≤ w.n.toNat, (s.storing id addr j (j + m) pipe).storedBy w.id = _
    rw [same]
    exact finished.result

theorem Stream.wrote (stream : s.Stream) (here : s.call i = .write id addr n k) {r : Int}
    (result : r = n ∧ k = n.toNat ∨ r = -1) : (s.wrote i ⟨id, addr, n, r⟩).Stream := by
  have pending := stream.pending i id addr n k here
  have quiet := stream.goto i .outside nofun
  refine ⟨quiet.fits, quiet.bytes, quiet.begun, fun i' id' addr' n' j' here' => ?_, ?_, ?_⟩
  · have other := quiet.pending i' id' addr' n' j' here'
    refine ⟨other.begun, other.inside, other.stored, fun w member => ?_, other.alone⟩
    rcases List.mem_cons.mp member with rfl | old
    · rintro rfl
      by_cases mine : i' = i
      · subst mine
        cases (update_self i' _ s.call).symm.trans here'
      · exact pending.alone i' mine _ _ _ ((update_of_ne mine _ _).symm.trans here')
    · exact other.running w old
  · intro w member
    rcases List.mem_cons.mp member with rfl | old
    · refine ⟨pending.begun, ?_⟩
      rcases result with ⟨rfl, rfl⟩ | rfl
      · exact .inl ⟨rfl, pending.stored⟩
      · exact .inr ⟨rfl, k, pending.inside, pending.stored⟩
    · have finished := stream.finished w old
      exact ⟨finished.begun, finished.result⟩
  · refine List.nodup_cons.mpr ⟨fun member => ?_, stream.distinct⟩
    obtain ⟨w, old, same⟩ := List.mem_map.mp member
    exact pending.running w old same

theorem goto_goto (s : PipeSys ι) (i : ι) (a b : PipeCall) :
    (s.goto i a).goto i b = s.goto i b := by
  unfold PipeSys.goto
  dsimp only
  rw [update_idem]

theorem Stream.pipewrite (stream : s.Stream) (pending : s.Pending i id addr n j) :
    (s.pipewrite i id addr n j).Stream := by
  cases filled : s.pipe.fill addr j (n.toNat - j) with
  | mk k pipe =>
    have stored := stream.fill pending filled
    have inside := (stored.pending i id addr n k (update_self ..)).inside
    have returns : ∀ proc (r : Int), r = n ∧ k = n.toNat ∨ r = -1 →
        ({ s.storing id addr j k pipe with proc := proc }.wrote i ⟨id, addr, n, r⟩).Stream := by
      intro proc r result
      have := (stored.setProc proc).wrote (update_self ..) result
      unfold PipeSys.wrote at *
      exact goto_goto _ i _ _ ▸ this
    unfold PipeSys.pipewrite
    rw [filled]
    dsimp only
    split
    · split
      · exact returns _ (-1) (.inr rfl)
      · exact stored.setProc _
    · exact returns _ n (.inl ⟨rfl, by omega⟩)

theorem Stream.step {e : PipeEvent ι} (stream : s.Stream) (done : s.step e = .ok t) : t.Stream := by
  cases step_cases done with
  | read i n => exact stream.piperead i n
  | write i addr n =>
    obtain ⟨stream, pending⟩ := stream.begin i addr n
    exact stream.pipewrite pending
  | resume i id addr n j here => exact stream.pipewrite (stream.pending i id addr n j here)
  | close i writable => exact stream.pipeclose writable
  | proc i p => exact stream.setProc _

omit [DecidableEq ι] in
theorem Start.stream (start : s.Start) : s.Stream := by
  have empty : s.pipe.count = 0 := by
    unfold Pipe.count
    rw [start.nread, start.nwrite]
    rfl
  refine ⟨by rw [empty]; exact Nat.zero_le _, ?_, ?_, fun i id addr n j here => ?_, ?_, ?_⟩
  · rw [start.stored, start.returned, Pipe.contents, empty]
    rfl
  · rw [start.stored]
    nofun
  · rw [start.outside] at here
    cases here
  · rw [start.written]
    nofun
  · rw [start.written]
    exact List.nodup_nil

end PipeSys

/-- **Pipes are byte streams.** In every state that a run reaches, there are at most `PIPESIZE`
bytes in the pipe; the bytes returned are the first of the bytes stored; and a `pipewrite` that
returned stored its bytes, or some first ones of them if it returned `-1`. -/
theorem pipe_stream {ι : Type} [DecidableEq ι] {s t : PipeSys ι} {es : List (PipeEvent ι)}
    (start : s.Start) (run : es.foldlM PipeSys.step s = .ok t) :
    (t.pipe.nwrite - t.pipe.nread).toNat ≤ PIPESIZE ∧
      t.returned <+: t.stored.map Prod.snd ∧
      (t.written.map PipeWrite.id).Nodup ∧
      ∀ w ∈ t.written,
        (w.result = w.n ∨ w.result = -1) ∧
        (0 ≤ w.result → t.storedBy w.id = PipeSys.bytesOf w.addr w.n.toNat) ∧
        (w.result = -1 → t.storedBy w.id <+: PipeSys.bytesOf w.addr w.n.toNat) := by
  have stream := run_invariant (fun _ t => t.Stream) start.stream
    (fun _ _ _ _ stream done => stream.step done) es t run
  refine ⟨stream.fits, ?_, stream.distinct, fun w member => ?_⟩
  · rw [stream.bytes]
    exact List.prefix_append _ _
  · rcases (stream.finished w member).result with ⟨result, all⟩ | ⟨result, j, le, first⟩
    · exact ⟨.inl result, fun _ => all, fun _ => all ▸ List.prefix_rfl⟩
    · refine ⟨.inr result, fun positive => by omega, fun _ => ?_⟩
      rw [first]
      exact PipeSys.bytesOf_prefix w.addr le

/-- A pipe, and processes that run. -/
def newPipe (ι : Type) : PipeSys ι :=
  { page := 0, pipe := ⟨fun _ => 0, 0, 0, true, true⟩, proc := fun _ => { Proc.zero with
    state := .RUNNING }, call := fun _ => .outside, calls := 0, stored := [], returned :=
      [], written := [] }

theorem start_newPipe (ι : Type) : (newPipe ι).Start :=
  ⟨rfl, rfl, rfl, rfl, fun _ => rfl, nofun, rfl, rfl, rfl, rfl⟩

/-- One process writes three bytes, another one reads two of them. -/
theorem pipe_stream_two : ∃ t,
    [PipeEvent.write 0 (fun i => UInt8.ofNat (i + 65)) 3, .read 1 2].foldlM PipeSys.step
        (newPipe (Fin 2)) = .ok t ∧
      t.returned = [65, 66] ∧ t.returned <+: t.stored.map Prod.snd :=
  have run : [PipeEvent.write 0 (fun i => UInt8.ofNat (i + 65)) 3, .read 1 2].foldlM PipeSys.step
      (newPipe (Fin 2)) = .ok _ := rfl
  ⟨_, run, rfl, (pipe_stream (start_newPipe _) run).2.1⟩

end Xv6
