/-
**The buffer cache is transparent.**

Clients read sectors outside the log, change the data of buffers between `bread` and `brelse`, each
change followed by `log_write` or `bwrite`, and take part in transactions; `end_op` commits.
`bcache_transparent`: what `bread` returns is what was stored last, whatever was recycled in
between.
-/

import Xv6.Bio.Logged

namespace Xv6

open Lib Function

/-- The clients' calls. -/
inductive BioOp
  | bread (sector : UInt32)
  /-- The data of a buffer are changed and logged. -/
  | logWrite (b : Bslot) (data : Block)
  /-- The data of a buffer are changed and written. -/
  | bwrite (b : Bslot) (data : Block)
  | brelse (b : Bslot)
  | beginOp
  /-- `end_op`, with the commit of the last one. -/
  | endOp

/-- The cache, the disk and the log; `last` is what was stored last in each sector. -/
structure BioSys where
  bio : Bio
  log : Log
  last : UInt32 → Block

instance (log : Log) (x : Nat) : Decidable (log.InLog x) := inferInstanceAs (Decidable (_ ∧ _))

namespace BioSys

/-- After `binit`, with the log that `initlog` leaves for `nlog` log blocks at the end of `size`
blocks; of the buffers that `initlog` used, the cache has none yet. -/
def boot (disk : Memdisk) (size nlog : UInt32) : BioSys :=
  ⟨⟨.binit, disk, []⟩, .init size.toNat nlog.toNat, disk.sectors⟩

/-- Clients change only buffers that they got from `bread`. -/
def held (y : BioSys) (b : Bslot) (call : Except BioStop BioSys) : Except BioStop BioSys :=
  if (y.bio.cache.buf b).busy = true ∧ ¬ y.log.InLog (y.bio.cache.buf b).sector.toNat then call
  else .error .disabled

/-- **One call.** -/
def step (y : BioSys) : BioOp → Except BioStop BioSys
  | .bread sector =>
    if y.log.InLog sector.toNat then .error .disabled
    else do
      let (_, s) ← y.bio.bread sector
      return { y with bio := s }
  | .logWrite b data => y.held b do
    let (log, s) ← Bio.logWrite y.log (y.bio.store b data) b
    return ⟨s, log, update y.last (y.bio.cache.buf b).sector data⟩
  | .bwrite b data => y.held b do
    let s ← (y.bio.store b data).bwrite b
    return ⟨s, y.log, update y.last (y.bio.cache.buf b).sector data⟩
  | .brelse b => y.held b do
    let s ← y.bio.brelse b
    return { y with bio := s }
  | .beginOp =>
    match y.log.beginOp with
    | none => .error .sleep
    | some log => .ok { y with log }
  | .endOp =>
    match y.log.endOp with
    | .error panic => .error (.log panic)
    | .ok (false, log) => .ok { y with log }
    | .ok (true, log) => do
      let (log, s) ← Bio.commit log y.bio
      return { y with bio := s, log := { log with committing := false } }

/-- **`bread` returns what was stored last.** -/
def Transparent (y : BioSys) : BioOp → Prop
  | .bread sector => ¬ y.log.InLog sector.toNat → ∀ b s, y.bio.bread sector = .ok (b, s) →
    (s.cache.buf b).data = y.last sector
  | _ => True

/-- The transaction fits the log, which fits the disk. -/
structure Ready (log : Log) : Prop where
  fits : log.start + log.size < 2 ^ 32
  room : log.lh.n ≤ log.size - 1
  distinct : log.lh.sector.Nodup
  outside : ∀ x ∈ log.lh.sector, ¬ log.InLog x.toNat

/-- A store shows what was stored last, and the cache refines it. -/
structure Faithful (y : BioSys) : Prop where
  ready : Ready y.log
  store : ∃ v, Bio.Refines y.bio v ∧ ∀ x : UInt32, ¬ y.log.InLog x.toNat → v.view x.toNat = y.last x

section Faithful

variable {y y' : BioSys} {e : BioOp} {b : Bslot} {log log' : Log} {x : UInt32}
    {call : Except BioStop BioSys}

theorem Ready.start_lt (ready : Ready log) : log.start + log.lh.n < 2 ^ 32 := by
  have room := ready.room
  have fits := ready.fits
  omega

theorem Ready.view_commit (ready : Ready log) (v : Bufs) {z : Nat} (outside : ¬ log.InLog z) :
    (log.commit v).2.view z = v.view z := by
  by_cases some' : 0 < log.lh.n
  · have room := ready.room
    have tx : Log.Transaction log log.lh (log.newBlocks v) :=
      ⟨List.length_map .., by omega, ready.distinct, ready.outside⟩
    obtain ⟨committed, erased, _, _, run⟩ := Log.performs_commit some' tx
    rw [run.view]
    refine applyWrites_of_same (fun w member here => ?_) rfl
    rw [List.mem_append, List.mem_cons, List.mem_append, List.mem_singleton] at member
    rcases member with inLog | rfl | home | rfl
    · have bounds := Log.mem_logWrites inLog
      have length : (log.newBlocks v).length = log.lh.n := List.length_map ..
      refine absurd ?_ outside
      unfold Log.InLog
      omega
    · exact absurd (here ▸ tx.start_inLog) outside
    · unfold Log.homeWrites Log.newBlocks at home
      rw [List.zip_map, List.mem_map] at home
      obtain ⟨⟨x₁, x₂⟩, both, rfl⟩ := home
      have same : x₁ = x₂ := by
        obtain ⟨i, inside, at'⟩ := List.mem_iff_getElem.mp both
        rw [List.getElem_zip] at at'
        exact (Prod.mk.inj at').1.symm.trans (Prod.mk.inj at').2
      rw [← here, same]
      rfl
    · exact absurd (here ▸ tx.start_inLog) outside
  · unfold Log.commit
    rw [if_neg some']

theorem Ready.write (ready : Ready log) (outside : ¬ log.InLog x.toNat)
    (grown : log.write x = .ok log') :
    Ready log' ∧ log'.start = log.start ∧ log'.size = log.size := by
  obtain ⟨_, room, rfl⟩ := Log.write_eq_ok.mp grown
  have small : log.lh.n < LOGSIZE := lt_of_lt_of_le room (min_le_left _ _)
  have fits : log.lh.n < log.size - 1 := lt_of_lt_of_le room (min_le_right _ _)
  refine ⟨⟨ready.fits, ?_, ?_, fun z member => ?_⟩, rfl, rfl⟩
  · show (log.lh.absorb x small).n ≤ log.size - 1
    by_cases known : x ∈ log.lh.sector
    · rw [LogHeader.n_absorb_known _ known]
      exact ready.room
    · rw [LogHeader.n_absorb_fresh _ known]
      omega
  · exact LogHeader.nodup_absorb small ready.distinct
  · rcases (LogHeader.mem_absorb small z).mp member with old | rfl
    · exact ready.outside z old
    · exact outside

theorem held_eq_ok (done : y.held b call = .ok y') :
    (y.bio.cache.buf b).busy = true ∧ ¬ y.log.InLog (y.bio.cache.buf b).sector.toNat ∧
    call = .ok y' := by
  unfold held at done
  split at done
  · next client => exact ⟨client.1, client.2, done⟩
  · cases done

theorem Faithful.modify {s : Bio} {v v' : Bufs} {data : Block}
    (shows : ∀ z : UInt32, ¬ y.log.InLog z.toNat → v.view z.toNat = y.last z) (ready : Ready log)
    (start : log.start = y.log.start) (size : log.size = y.log.size) (refines : Bio.Refines s v')
    (view : v'.view = update v.view x.toNat data) : Faithful ⟨s, log, update y.last x data⟩ := by
  refine ⟨ready, v', refines, fun z outside => ?_⟩
  show v'.view z.toNat = update y.last x data z
  rw [view]
  by_cases here : z = x
  · rw [here, update_self, update_self]
  · rw [update_of_ne here, update_of_ne fun equal => here (UInt32.toNat_inj.mp equal)]
    refine shows z ?_
    have outside' : ¬ log.InLog z.toNat := outside
    unfold Log.InLog at outside' ⊢
    rwa [start, size] at outside'

theorem Faithful.transparent (faithful : y.Faithful) (e : BioOp) : y.Transparent e := by
  cases e with
  | bread sector =>
    intro outside b s read
    obtain ⟨v, refines, shows⟩ := faithful.store
    obtain ⟨refines', has, _⟩ := refines.bread read
    rw [refines'.data b sector has, Bufs.bread_view]
    exact shows sector outside
  | logWrite b data => trivial
  | bwrite b data => trivial
  | brelse b => trivial
  | beginOp => trivial
  | endOp => trivial

theorem Faithful.step (faithful : y.Faithful) (taken : y.step e = .ok y') : y'.Faithful := by
  obtain ⟨ready, v, refines, shows⟩ := faithful
  cases e with
  | bread sector =>
    unfold BioSys.step at taken
    simp only at taken
    split at taken
    · cases taken
    · obtain ⟨⟨b, s⟩, read, rest⟩ := bind_eq_ok.mp taken
      cases rest
      refine ⟨ready, _, (refines.bread read).1, fun z outside => ?_⟩
      rw [Bufs.bread_view]
      exact shows z outside
  | logWrite b data =>
    obtain ⟨busy, outside, done⟩ := held_eq_ok taken
    obtain ⟨⟨log, s⟩, logged, rest⟩ := bind_eq_ok.mp done
    cases rest
    obtain ⟨refines', grown⟩ := refines.logWrite ⟨(refines.known b (.inl busy)).1, rfl⟩ logged
    obtain ⟨ready', start, size⟩ := ready.write outside grown
    exact .modify shows ready' start size refines' (v.store_view _ _)
  | bwrite b data =>
    obtain ⟨busy, _, done⟩ := held_eq_ok taken
    obtain ⟨s, written, rest⟩ := bind_eq_ok.mp done
    cases rest
    have refines' := (refines.bwrite ⟨(refines.known b (.inl busy)).1, rfl⟩ written).1
    exact .modify shows ready rfl rfl refines' (v.bwrite_view _ _)
  | brelse b =>
    obtain ⟨_, _, done⟩ := held_eq_ok taken
    obtain ⟨s, released, rest⟩ := bind_eq_ok.mp done
    cases rest
    exact ⟨ready, v, (refines.brelse released).1, shows⟩
  | beginOp =>
    unfold BioSys.step Log.beginOp at taken
    split_ifs at taken
    cases taken
    exact ⟨⟨ready.fits, ready.room, ready.distinct, ready.outside⟩, v, refines, shows⟩
  | endOp =>
    unfold BioSys.step Log.endOp at taken
    simp only at taken
    split_ifs at taken
    · obtain ⟨⟨log, s⟩, committed, rest⟩ := bind_eq_ok.mp taken
      cases rest
      have ready' : Ready { y.log with outstanding := y.log.outstanding - 1, committing := true } :=
        ⟨ready.fits, ready.room, ready.distinct, ready.outside⟩
      obtain ⟨refines', rfl⟩ := refines.commit ready'.start_lt committed
      refine ⟨⟨ready.fits, Nat.zero_le _, List.nodup_nil, nofun⟩, _, refines', fun z outside => ?_⟩
      rw [ready'.view_commit v outside]
      exact shows z outside
    · cases taken
      exact ⟨⟨ready.fits, ready.room, ready.distinct, ready.outside⟩, v, refines, shows⟩

theorem faithful_boot (disk : Memdisk) {size nlog : UInt32} (fits : nlog ≤ size) :
    (boot disk size nlog).Faithful := by
  refine ⟨⟨?_, Nat.zero_le _, List.nodup_nil, nofun⟩,
    ⟨fun z => disk.sectors (.ofNat z), fun _ => none, []⟩,
    ⟨Bcache.wellFormed_binit, fun b inUse => ?_, fun b z has => ?_, fun z => ?_,
    fun _ => .inl rfl, trivial,
      fun _ => False.elim⟩, fun z _ => ?_⟩
  · show size.toNat - nlog.toNat + nlog.toNat < 2 ^ 32
    have := UInt32.le_iff_toNat_le.mp fits
    have := size.toNat_lt
    omega
  · refine absurd inUse ?_
    show ¬ ((Bcache.binit.buf b).busy = true ∨ (Bcache.binit.buf b).dev ≠ -1)
    rw [Bcache.buf_binit]
    decide
  · have isDev : (Bcache.binit.buf b).dev = 1 := has.1
    rw [Bcache.buf_binit] at isDev
    exact absurd isDev (by decide)
  · show disk.sectors z = disk.sectors (.ofNat z.toNat)
    rw [UInt32.ofNat_toNat]
  · show disk.sectors (.ofNat z.toNat) = disk.sectors z
    rw [UInt32.ofNat_toNat]

end Faithful

end BioSys

/-- **The buffer cache is transparent.** In every sequence of calls, `bread` returns for a sector
outside the log the data that were stored there last, at first those of the disk; and no buffer is
recycled between a `log_write` and the next write of its sector to the disk, by the commit or by
`bwrite`. -/
theorem bcache_transparent (disk : Memdisk) {size nlog : UInt32} (fits : nlog ≤ size)
    (es : List BioOp) :
    EachStep BioSys.step BioSys.Transparent (BioSys.boot disk size nlog) es ∧
      Always BioSys.step (fun y => BioEvent.Pinned y.bio.events)
        (BioSys.boot disk size nlog) es := by
  have always : Always BioSys.step BioSys.Faithful (BioSys.boot disk size nlog) es :=
    fun before _ m _ run => run_invariant (fun _ y => y.Faithful) (BioSys.faithful_boot disk fits)
      (fun _ _ _ _ faithful taken => faithful.step taken) before m run
  refine ⟨fun before e after m _ split run _ => ?_, fun before after m split run => ?_⟩
  · exact (always before (e :: after) m split run).transparent e
  · obtain ⟨_, v, refines, _⟩ := always before after m split run
    exact refines.pinned

/-- A sector is changed in a transaction; then as many others are read as there are buffers, and one
of those is released. -/
def recycleOps : List BioOp :=
  [.beginOp, .bread 100, .logWrite 0 (Block.zero.setWord 0 7), .brelse 0, .endOp] ++
    ((List.range NBUF).map fun i => .bread (200 + .ofNat i)) ++ [.brelse 0]

set_option maxRecDepth 100000 in
/-- **A recycled buffer**: no buffer has the sector then, and `bread` gets from the disk what was
stored in it. -/
theorem bcache_transparent_recycled : ∃ y b s,
    recycleOps.foldlM BioSys.step (BioSys.boot ⟨fun _ => .zero, 1024⟩ 1024 30) = .ok y ∧
    (∀ b, (y.bio.cache.buf b).sector ≠ 100) ∧ y.bio.bread 100 = .ok (b, s) ∧
    (s.cache.buf b).data.word 0 = 7 := by
  obtain ⟨y, run, ends⟩ := exists_of_endsIn
    (x := recycleOps.foldlM BioSys.step (BioSys.boot ⟨fun _ => .zero, 1024⟩ 1024 30)) (P := fun y =>
      endsIn (y.bio.bread 100) fun _ => decide ((∀ b, (y.bio.cache.buf b).sector ≠ 100) ∧
        ¬ y.log.InLog (100 : UInt32).toNat ∧ (y.last 100).word 0 = 7)) (by decide +kernel)
  obtain ⟨⟨b, s⟩, read, facts⟩ := exists_of_endsIn ends
  obtain ⟨recycled, outside, stored⟩ := of_decide_eq_true facts
  have taken : y.step (.bread 100) = .ok { y with bio := s } := by
    unfold BioSys.step
    simp only [read, ok_bind]
    exact if_neg outside
  have same := (@bcache_transparent ⟨fun _ => .zero, 1024⟩ 1024 30 (by decide)
    (recycleOps ++ [.bread 100])).1 recycleOps _ [] y _ rfl run taken outside b s read
  exact ⟨y, b, s, run, recycled, read, by rw [same, stored]⟩

/-- The calls that log sector 100, write it, and then read thirty other sectors. -/
def recyclingCalls : List BioOp :=
  [.beginOp, .bread 100, .logWrite 0 .zero, .bwrite 0 .zero, .brelse 0] ++
    (List.range 30).map fun i => .bread (.ofNat i)

/-- **A buffer that was logged can be recycled before the commit**: `bwrite` clears `B_DIRTY` while
the sector is in the header of the log. -/
theorem recycled_before_commit : ∃ y,
    recyclingCalls.foldlM BioSys.step (BioSys.boot ⟨fun _ => .zero, 1024⟩ 1024 30) = .ok y ∧
      y.bio.events = [.recycled 100, .wrote 100, .logged 100] ∧ y.log.lh.sector = [100] := by
  have ends :
      endsIn (recyclingCalls.foldlM BioSys.step (BioSys.boot ⟨fun _ => .zero, 1024⟩ 1024 30))
        (fun y => decide (y.bio.events = [.recycled 100, .wrote 100, .logged 100] ∧
          y.log.lh.sector = [100])) = true := by
    decide +kernel
  obtain ⟨y, run, is⟩ := exists_of_endsIn ends
  exact ⟨y, run, of_decide_eq_true is⟩

end Xv6
