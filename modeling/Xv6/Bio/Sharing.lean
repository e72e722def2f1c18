/-
**The buffer cache shared by processes.**

Any number of processes call `bget`, `brelse` and `bwrite`; the critical sections under
`bcache.lock` follow each other in any order. A process that sleeps in `bget` scans the list again
when it runs, so it is a process that calls `bget` later. `bwrite` is two events, since others run
while the disk takes its time. `holder` is not in the source: the process to which `bget` returned
the buffer last, until its `brelse`.
-/

import Xv6.Bio.Basic
import Xv6.Lib.Run

namespace Xv6

open Lib Function

structure BufSys (P : Type) where
  cache : Bcache
  disk : Memdisk
  holder : Bslot → Option P

inductive BufOp (P : Type)
  | bget (p : P) (dev sector : UInt32)
  | brelse (p : P) (b : Bslot)
  /-- `bwrite` sets `B_DIRTY`. -/
  | bwrite (p : P) (b : Bslot)
  /-- The transfer that `bread` and `bwrite` wait for. -/
  | iderw (p : P) (b : Bslot)
  /-- The holder changes the data. -/
  | store (p : P) (b : Bslot) (data : Block)

namespace BufSys

variable {P : Type}

/-- After `binit`. -/
def boot (disk : Memdisk) : BufSys P := ⟨.binit, disk, fun _ => none⟩

/-- Only the holder of a buffer does this. -/
def own [DecidableEq P] (y : BufSys P) (p : P) (b : Bslot) (call : Except BioStop (BufSys P)) :
    Except BioStop (BufSys P) := if y.holder b = some p then call else .error .disabled

theorem own_eq_ok [DecidableEq P] {y y' : BufSys P} {p : P} {b : Bslot}
    {call : Except BioStop (BufSys P)} (done : y.own p b call = .ok y') :
    y.holder b = some p ∧ call = .ok y' := by
  unfold own at done
  split at done
  · next held => exact ⟨held, done⟩
  · cases done

/-- **One event.** -/
def step [DecidableEq P] (y : BufSys P) : BufOp P → Except BioStop (BufSys P)
  | .bget p dev sector =>
    match y.cache.bget dev sector with
    | .ok (b, c) => .ok { y with cache := c, holder := update y.holder b (some p) }
    | .error .sleep => .ok y
    | .error stop => .error stop
  | .brelse p b => y.own p b do
    let c ← y.cache.brelse b
    return { y with cache := c, holder := update y.holder b none }
  | .bwrite p b => y.own p b do
    let c ← y.cache.bwriteDirty b
    return { y with cache := c }
  | .iderw p b => y.own p b do
    let (c, d) ← y.cache.iderw y.disk b
    return { y with cache := c, disk := d }
  | .store p b data =>
    y.own p b (.ok { y with cache := y.cache.setBuf b { y.cache.buf b with data } })

/-- The cache is well formed, and the busy buffers are those that are held. -/
structure Sound (y : BufSys P) : Prop where
  cache : y.cache.WellFormed
  busy : ∀ b, (y.cache.buf b).busy = true ↔ ∃ p, y.holder b = some p

/-- What `bget` returns was held by nobody. -/
def Fresh (y : BufSys P) : BufOp P → Prop
  | .bget _ dev sector => ∀ b c, y.cache.bget dev sector = .ok (b, c) → y.holder b = none
  | _ => True

section Sound

variable {y y' : BufSys P} {e : BufOp P} {b : Bslot} {c : Bcache}

theorem Sound.keep {x : Buf} {d : Memdisk} (sound : y.Sound) (same : x.dev = (y.cache.buf b).dev ∧
    x.sector = (y.cache.buf b).sector ∧ x.busy = (y.cache.buf b).busy) :
    Sound { y with cache := y.cache.setBuf b x, disk := d } := by
  refine ⟨sound.cache.keep same.1 same.2.1, fun b' => ?_⟩
  show ((y.cache.setBuf b x).buf b').busy = true ↔ ∃ p, y.holder b' = some p
  rw [Bcache.buf_setBuf]
  split_ifs with here
  · rw [same.2.2, here]
    exact sound.busy b
  · exact sound.busy b'

theorem iderw_keys {d d' : Memdisk} {x x' : Buf} (done : d.iderw x = .ok (x', d')) :
    x'.dev = x.dev ∧ x'.sector = x.sector ∧ x'.busy = x.busy := by
  obtain ⟨_, _, _, _, ⟨_, rfl, _⟩ | ⟨_, rfl, _⟩⟩ := Memdisk.iderw_eq_ok.mp done
  · exact ⟨rfl, rfl, rfl⟩
  · exact ⟨rfl, rfl, rfl⟩

theorem Sound.fresh (sound : y.Sound) (e : BufOp P) : y.Fresh e := by
  cases e with
  | bget p dev sector =>
    intro b c got
    obtain ⟨l, listed⟩ := sound.cache.listed
    have free : (y.cache.buf b).busy = false := by
      rcases listed.bget_cases dev sector with ⟨b', _, _, free, done⟩ | ⟨_, _, _, _, done⟩ |
        ⟨_, ⟨b', free, _, done⟩ | ⟨_, done⟩⟩
      · cases done.symm.trans got
        exact free
      · cases done.symm.trans got
      · cases done.symm.trans got
        exact free
      · cases done.symm.trans got
    cases held : y.holder b with
    | none => rfl
    | some q => exact absurd (free.symm.trans ((sound.busy b).mpr ⟨q, held⟩)) Bool.false_ne_true
  | brelse p b => trivial
  | bwrite p b => trivial
  | iderw p b => trivial
  | store p b data => trivial

theorem Sound.take {x : Buf} (sound : y.Sound) (p : P) (busy : x.busy = true)
    (key : ∀ b', b' ≠ b → x.dev ≠ -1 →
      ¬ ((y.cache.buf b').dev = x.dev ∧ (y.cache.buf b').sector = x.sector)) :
    Sound { y with cache := y.cache.setBuf b x, holder := update y.holder b (some p) } := by
  refine ⟨sound.cache.setBuf key, fun b' => ?_⟩
  simp only [Bcache.buf_setBuf, update_apply]
  by_cases here : b' = b
  · rw [if_pos here, if_pos here]
    exact ⟨fun _ => ⟨p, rfl⟩, fun _ => busy⟩
  · rw [if_neg here, if_neg here]
    exact sound.busy b'

theorem Sound.brelse (sound : y.Sound) (released : y.cache.brelse b = .ok c) :
    Sound { y with cache := c, holder := update y.holder b none } := by
  refine ⟨sound.cache.brelse released, fun b' => ?_⟩
  simp only [(Bcache.buf_brelse released).2, Bcache.buf_setBuf, update_apply]
  by_cases here : b' = b
  · rw [if_pos here, if_pos here]
    exact ⟨nofun, nofun⟩
  · rw [if_neg here, if_neg here]
    exact sound.busy b'

theorem Sound.step [DecidableEq P] (sound : y.Sound) (taken : y.step e = .ok y') : y'.Sound := by
  cases e with
  | bget p dev sector =>
    unfold BufSys.step at taken
    obtain ⟨l, listed⟩ := sound.cache.listed
    rcases listed.bget_cases dev sector with ⟨b, isDev, isSector, _, done⟩ | ⟨_, _, _, _, done⟩ |
      ⟨uncached, ⟨b, _, _, done⟩ | ⟨_, done⟩⟩
    · simp only [done] at taken
      cases taken
      refine sound.take p rfl fun b' other known here => other ?_
      exact sound.cache.unique b b' known here.1 here.2
    · simp only [done] at taken
      cases taken
      exact sound
    · simp only [done] at taken
      cases taken
      exact sound.take p rfl fun b' _ _ => uncached b'
    · simp only [done] at taken
      cases taken
  | brelse p b =>
    obtain ⟨c, released, rest⟩ := bind_eq_ok.mp (own_eq_ok taken).2
    cases rest
    exact sound.brelse released
  | bwrite p b =>
    obtain ⟨c, done, rest⟩ := bind_eq_ok.mp (own_eq_ok taken).2
    cases rest
    unfold Bcache.bwriteDirty at done
    split at done
    · cases done
    · cases done
      exact sound.keep ⟨rfl, rfl, rfl⟩
  | iderw p b =>
    obtain ⟨⟨c, d⟩, done, rest⟩ := bind_eq_ok.mp (own_eq_ok taken).2
    cases rest
    obtain ⟨⟨x, d'⟩, transferred, rest⟩ := bind_eq_ok.mp done
    cases rest
    exact sound.keep (iderw_keys transferred)
  | store p b data =>
    cases (own_eq_ok taken).2
    exact sound.keep ⟨rfl, rfl, rfl⟩

end Sound

theorem sound_boot (disk : Memdisk) : (boot disk : BufSys P).Sound := by
  refine ⟨Bcache.wellFormed_binit, fun b => ?_⟩
  show (Bcache.binit.buf b).busy = true ↔ ∃ p : P, none = some p
  rw [Bcache.buf_binit]
  exact ⟨nofun, nofun⟩

end BufSys

/-- **The buffer cache is represented properly.** In every state that events of any processes lead
to from `binit`, the list is a circle through all buffers, no two buffers have a sector in common,
and a buffer is busy exactly while one process holds it; and `bget` never returns a buffer that is
held. -/
theorem bcache_sound {P : Type} [DecidableEq P] (disk : Memdisk) (es : List (BufOp P)) :
    Always BufSys.step BufSys.Sound (BufSys.boot disk) es ∧
      EachStep BufSys.step BufSys.Fresh (BufSys.boot disk) es := by
  have always : Always BufSys.step BufSys.Sound (BufSys.boot disk) es :=
    fun before _ m _ run => run_invariant (fun _ y => y.Sound) (BufSys.sound_boot disk)
      (fun _ _ _ _ sound taken => sound.step taken) before m run
  exact ⟨always,
    fun before e after m _ split run _ => (always before (e :: after) m split run).fresh e⟩

end Xv6
