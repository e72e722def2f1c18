/-
**The log over the buffer cache.**

`log_write` and `commit` with the calls of `bread`, `bwrite` and `brelse` they make. `Refines` says
that the cache and the disk show what the store `Bufs` shows, in which nothing is ever recycled.
Each call keeps it, and so does a whole commit, so that what is known of `Log.commit` holds over the
real cache.

The state has one thing that the source does not have: `events`, what was logged, written and
recycled so far. A sector that was logged and not written since stays in its buffer.
-/

import Xv6.Bio.Basic
import Xv6.Log.Crash

namespace Xv6

open Lib Function

/-- What happens to the buffer of a sector. -/
inductive BioEvent
  | logged (sector : UInt32)
  | wrote (sector : UInt32)
  | recycled (sector : UInt32)
  deriving DecidableEq

namespace BioEvent

/-- The sector was logged and not written since; the newest event comes first. -/
def Unwritten : List BioEvent → UInt32 → Prop
  | [], _ => False
  | .logged y :: es, x => x = y ∨ Unwritten es x
  | .wrote y :: es, x => x ≠ y ∧ Unwritten es x
  | .recycled _ :: es, x => Unwritten es x

/-- **No buffer was recycled between `log_write` and the write to the disk.** -/
def Pinned : List BioEvent → Prop
  | [] => True
  | .recycled y :: es => ¬ Unwritten es y ∧ Pinned es
  | .logged _ :: es => Pinned es
  | .wrote _ :: es => Pinned es

end BioEvent

open BioEvent

structure Bio where
  cache : Bcache
  disk : Memdisk
  events : List BioEvent

namespace Bio

/-- `bread` of a sector of the disk. -/
def bread (s : Bio) (sector : UInt32) : Except BioStop (Bslot × Bio) := do
  let (b, c, d) ← s.cache.bread s.disk 1 sector
  let old := s.cache.buf b
  return (b,
    ⟨c, d, if old.dev = 1 ∧
    old.sector ≠ sector then .recycled old.sector :: s.events else s.events⟩)

/-- The holder of a buffer changes its data. -/
def store (s : Bio) (b : Bslot) (data : Block) : Bio :=
  { s with cache := s.cache.setBuf b { s.cache.buf b with data } }

def bwrite (s : Bio) (b : Bslot) : Except BioStop Bio := do
  let (c, d) ← s.cache.bwrite s.disk b
  return ⟨c, d, .wrote (s.cache.buf b).sector :: s.events⟩

def brelse (s : Bio) (b : Bslot) : Except BioStop Bio := do
  let c ← s.cache.brelse b
  return { s with cache := c }

/-- `log_write`. -/
def logWrite (log : Log) (s : Bio) (b : Bslot) : Except BioStop (Log × Bio) :=
  match log.write (s.cache.buf b).sector with
  | .error panic => .error (.log panic)
  | .ok log => .ok (log, { s with
      cache := s.cache.setBuf b { s.cache.buf b with dirty := true }
      events := .logged (s.cache.buf b).sector :: s.events })

/-- The loop of `write_log` from `tail` on. -/
def writeLogFrom (start : Nat) : Nat → List UInt32 → Bio → Except BioStop Bio
  | _, [], s => .ok s
  | tail, x :: xs, s => do
    let (toBuf, s) ← s.bread (.ofNat (start + tail + 1))
    let (fromBuf, s) ← s.bread x
    let s ←
      (s.store toBuf
      ((s.cache.buf toBuf).data.write 0 ((s.cache.buf fromBuf).data.read 0 BSIZE))).bwrite toBuf
    let s ← s.brelse fromBuf
    let s ← s.brelse toBuf
    writeLogFrom start (tail + 1) xs s

/-- The loop of `install_trans` from `tail` on. -/
def installFrom (start : Nat) : Nat → List UInt32 → Bio → Except BioStop Bio
  | _, [], s => .ok s
  | tail, x :: xs, s => do
    let (lbuf, s) ← s.bread (.ofNat (start + tail + 1))
    let (dbuf, s) ← s.bread x
    let s ←
      (s.store dbuf ((s.cache.buf dbuf).data.write 0 ((s.cache.buf lbuf).data.read 0 BSIZE))).bwrite
      dbuf
    let s ← s.brelse lbuf
    let s ← s.brelse dbuf
    installFrom start (tail + 1) xs s

/-- `write_head`. -/
def writeHead (log : Log) (s : Bio) : Except BioStop Bio := do
  let (buf, s) ← s.bread (.ofNat log.start)
  let s ← (s.store buf (LogHeader.store (s.cache.buf buf).data log.lh)).bwrite buf
  s.brelse buf

/-- `commit`. -/
def commit (log : Log) (s : Bio) : Except BioStop (Log × Bio) :=
  if log.lh.n > 0 then do
    let s ← writeLogFrom log.start 0 log.lh.sector s
    let s ← writeHead log s
    let s ← installFrom log.start 0 log.lh.sector s
    let log := { log with lh := LogHeader.empty }
    let s ← writeHead log s
    return (log, s)
  else return (log, s)

/-! ### The cache refines the store -/

/-- The buffer of the sector is dirty. -/
def Dirty (s : Bio) (x : UInt32) : Prop := ∃ b, s.cache.Has b x ∧ (s.cache.buf b).dirty = true

/-- **The cache and the disk show what the store shows.** A buffer has the data of its sector, and
so has the disk unless the buffer is dirty. -/
structure Refines (s : Bio) (v : Bufs) : Prop where
  formed : s.cache.WellFormed
  known : ∀ b, (s.cache.buf b).busy = true ∨ (s.cache.buf b).dev ≠ -1 →
    (s.cache.buf b).dev = 1 ∧ (s.cache.buf b).valid = true
  data : ∀ b x, s.cache.Has b x → (s.cache.buf b).data = v.view x.toNat
  disk : ∀ x : UInt32, s.disk.sectors x = v.disk x.toNat
  clean : ∀ x : UInt32, v.view x.toNat = v.disk x.toNat ∨ s.Dirty x
  pinned : Pinned s.events
  unwritten : ∀ x, Unwritten s.events x → s.Dirty x

section Refines

variable {s s' : Bio} {v v' : Bufs} {b : Bslot} {x : UInt32} {data : Block} {log : Log}

theorem Refines.congr (refines : Refines s v) (view : v'.view = v.view) (disk : v'.disk = v.disk) :
    Refines s v' := by
  obtain ⟨formed, known, data, onDisk, clean, pinned, unwritten⟩ := refines
  refine ⟨formed, known, ?_, ?_, ?_, pinned, unwritten⟩
  · rw [view]
    exact data
  · rw [disk]
    exact onDisk
  · rw [view, disk]
    exact clean

theorem Refines.valid (refines : Refines s v) (b : Bslot) (isDev : (s.cache.buf b).dev = 1) :
    (s.cache.buf b).valid = true := by
  refine (refines.known b (.inr ?_)).2
  rw [isDev]
  decide

theorem dirty_setBuf {y : Buf} {d : Memdisk} {es : List BioEvent} {z : UInt32} (dirty : s.Dirty z)
    (own : s.cache.Has b z → (s.cache.buf b).dirty = true → y.dev = 1 ∧ y.sector = z ∧
    y.dirty = true) : Dirty ⟨s.cache.setBuf b y, d, es⟩ z := by
  obtain ⟨b₀, has, isDirty⟩ := dirty
  by_cases here : b₀ = b
  · subst here
    obtain ⟨isDev, isSector, dirty'⟩ := own has isDirty
    refine ⟨b₀, ?_, ?_⟩
    · unfold Bcache.Has
      rw [Bcache.buf_setBuf, if_pos rfl]
      exact ⟨isDev, isSector⟩
    · show ((s.cache.setBuf b₀ y).buf b₀).dirty = true
      rw [Bcache.buf_setBuf, if_pos rfl]
      exact dirty'
  · refine ⟨b₀, ?_, ?_⟩
    · unfold Bcache.Has at has ⊢
      rw [Bcache.buf_setBuf, if_neg here]
      exact has
    · show ((s.cache.setBuf b y).buf b₀).dirty = true
      rw [Bcache.buf_setBuf, if_neg here]
      exact isDirty

theorem Refines.bread (refines : Refines s v) (done : s.bread x = .ok (b, s')) :
    Refines s' (v.bread x.toNat).2 ∧ s'.cache.Has b x ∧ (s.cache.buf b).busy = false ∧
      (s'.cache.buf b).busy = true ∧ ∀ b', b' ≠ b → s'.cache.buf b' = s.cache.buf b' := by
  obtain ⟨⟨b₀, c, d⟩, read, rest⟩ := bind_eq_ok.mp done
  cases rest
  obtain ⟨y, rfl, rfl, free, isDev, isSector, busy, valid, what⟩ :=
    refines.formed.bread_ok refines.valid read
  have here : (s.cache.setBuf b y).buf b = y := by rw [Bcache.buf_setBuf, if_pos rfl]
  have there : ∀ b', b' ≠ b → (s.cache.setBuf b y).buf b' = s.cache.buf b' := fun b' other => by
    rw [Bcache.buf_setBuf, if_neg other]
  have dirty : ∀ {z es}, s.Dirty z → Dirty ⟨s.cache.setBuf b y, s.disk, es⟩ z := fun {z es} is =>
    dirty_setBuf is fun has isDirty => by
      rcases what with ⟨hit, same, _⟩ | ⟨_, clean, _⟩
      · exact ⟨isDev, isSector.trans (hit.2.symm.trans has.2), same.trans isDirty⟩
      · exact absurd (clean.symm.trans isDirty) Bool.false_ne_true
  refine ⟨Refines.congr (v :=
    v) ⟨?_, fun b' => ?_, fun b' z has => ?_, refines.disk, fun z => ?_, ?_, ?_⟩
    (v.bread_view _) (v.bread_disk _), ⟨?_, ?_⟩, free, ?_, there⟩
  · refine refines.formed.setBuf fun b' other _ taken => ?_
    rw [isDev, isSector] at taken
    rcases what with ⟨hit, _⟩ | ⟨uncached, _⟩
    · exact other (refines.formed.has_unique hit taken)
    · exact uncached b' taken
  · show ((s.cache.setBuf b y).buf b').busy = true ∨ _ → ((s.cache.setBuf b y).buf b').dev = 1 ∧ _
    by_cases same : b' = b
    · subst same
      rw [here]
      exact fun _ => ⟨isDev, valid⟩
    · rw [there b' same]
      exact refines.known b'
  · show ((s.cache.setBuf b y).buf b').data = v.view z.toNat
    by_cases same : b' = b
    · subst same
      have isZ : x = z := by
        have := has.2
        rw [here] at this
        exact isSector.symm.trans this
      subst isZ
      rw [here]
      rcases what with ⟨hit, _, kept⟩ | ⟨uncached, _, _, fetched⟩
      · rw [kept]
        exact refines.data _ _ hit
      · rw [fetched, refines.disk]
        exact ((refines.clean x).resolve_right fun ⟨b'', has', _⟩ => uncached b'' has').symm
    · rw [there b' same]
      refine refines.data b' z ?_
      unfold Bcache.Has at has ⊢
      rwa [there b' same] at has
  · exact (refines.clean z).imp_right dirty
  · show Pinned (if _ then _ else _)
    split_ifs with recycled
    · refine ⟨fun unwritten => ?_, refines.pinned⟩
      obtain ⟨b', has, isDirty⟩ := refines.unwritten _ unwritten
      have same : b' = b := refines.formed.has_unique ⟨recycled.1, rfl⟩ has
      rcases what with ⟨hit, _⟩ | ⟨_, clean, _⟩
      · exact recycled.2 hit.2
      · rw [same, clean] at isDirty
        exact Bool.false_ne_true isDirty
    · exact refines.pinned
  · intro z unwritten
    refine dirty (refines.unwritten z ?_)
    simp only at unwritten
    split_ifs at unwritten with recycled
    · exact unwritten
    · exact unwritten
  · show ((s.cache.setBuf b y).buf b).dev = 1
    rw [here]
    exact isDev
  · show ((s.cache.setBuf b y).buf b).sector = x
    rw [here]
    exact isSector
  · show ((s.cache.setBuf b y).buf b).busy = true
    rw [here]
    exact busy

theorem Refines.modify {y : Buf} {d : Memdisk} {es : List BioEvent} (refines : Refines s v)
    (has : s.cache.Has b x) (isDev : y.dev = 1) (isSector : y.sector = x) (valid : y.valid = true)
    (view : v'.view = update v.view x.toNat y.data)
    (disk : ∀ z : UInt32, d.sectors z = v'.disk z.toNat)
    (others : ∀ z, z ≠ x → v'.disk z.toNat = v.disk z.toNat)
    (here : v'.disk x.toNat = y.data ∨ y.dirty = true) (pinned : Pinned es)
    (unwritten : ∀ z, Unwritten es z → z ≠ x ∧ Unwritten s.events z ∨ z = x ∧ y.dirty = true) :
    Refines ⟨s.cache.setBuf b y, d, es⟩ v' := by
  have dirty : ∀ {z}, z ≠ x → s.Dirty z → Dirty ⟨s.cache.setBuf b y, d, es⟩ z := fun other is =>
    dirty_setBuf is fun has' _ => absurd (has'.2.symm.trans has.2) other
  have own : y.dirty = true → Dirty ⟨s.cache.setBuf b y, d, es⟩ x := fun is => by
    have same : (s.cache.setBuf b y).buf b = y := by rw [Bcache.buf_setBuf, if_pos rfl]
    refine ⟨b, ⟨?_, ?_⟩, ?_⟩
    · show ((s.cache.setBuf b y).buf b).dev = 1
      rw [same, isDev]
    · show ((s.cache.setBuf b y).buf b).sector = x
      rw [same, isSector]
    · show ((s.cache.setBuf b y).buf b).dirty = true
      rw [same, is]
  refine ⟨refines.formed.keep (isDev.trans has.1.symm) (isSector.trans has.2.symm), fun b' => ?_,
    fun b' z has' => ?_, disk, fun z => ?_, pinned, fun z is => ?_⟩
  · show ((s.cache.setBuf b y).buf b').busy = true ∨ _ → ((s.cache.setBuf b y).buf b').dev = 1 ∧ _
    by_cases same : b' = b
    · subst same
      rw [Bcache.buf_setBuf, if_pos rfl]
      exact fun _ => ⟨isDev, valid⟩
    · rw [Bcache.buf_setBuf, if_neg same]
      exact refines.known b'
  · show ((s.cache.setBuf b y).buf b').data = v'.view z.toNat
    unfold Bcache.Has at has'
    rw [view]
    by_cases same : b' = b
    · subst same
      rw [Bcache.buf_setBuf, if_pos rfl] at has' ⊢
      rw [← has'.2, isSector, update_self]
    · rw [Bcache.buf_setBuf, if_neg same] at has' ⊢
      rw [update_of_ne]
      · exact refines.data b' z has'
      · intro equal
        exact same (refines.formed.has_unique has (UInt32.toNat_inj.mp equal ▸ has'))
  · by_cases same : z = x
    · subst same
      rw [view, update_self]
      exact here.imp Eq.symm own
    · rw [view, update_of_ne fun equal => same (UInt32.toNat_inj.mp equal), others z same]
      exact (refines.clean z).imp_right (dirty same)
  · rcases unwritten z is with ⟨other, before⟩ | ⟨rfl, isDirty⟩
    · exact dirty other (refines.unwritten z before)
    · exact own isDirty

theorem Refines.bwrite (refines : Refines s v) (has : s.cache.Has b x)
    (done : (s.store b data).bwrite b = .ok s') :
    Refines s' (v.bwrite x.toNat data) ∧ s'.cache.Has b x ∧ (s'.cache.buf b).busy = true ∧
      ∀ b', b' ≠ b → s'.cache.buf b' = s.cache.buf b' := by
  have same :
      (s.cache.setBuf b { s.cache.buf b with data }).buf b = { s.cache.buf b with data } := by
    rw [Bcache.buf_setBuf, if_pos rfl]
  obtain ⟨⟨c, d⟩, written, rest⟩ := bind_eq_ok.mp done
  cases rest
  obtain ⟨held, isDev, rfl, rfl⟩ := Bcache.bwrite_ok written
  simp only [store, same, Bcache.setBuf_setBuf] at held isDev ⊢
  obtain ⟨_, rfl⟩ := has
  refine ⟨refines.modify ⟨isDev, rfl⟩ isDev rfl rfl (v.bwrite_view _ _) (fun z => ?_)
    (fun z other => ?_) (.inl ?_)
    refines.pinned fun z is => .inl is, ?_, ?_, fun b' other => ?_⟩
  · show update s.disk.sectors (s.cache.buf b).sector data z =
      update v.disk (s.cache.buf b).sector.toNat data z.toNat
    by_cases here : z = (s.cache.buf b).sector
    · rw [here, update_self, update_self]
    · rw [update_of_ne here, update_of_ne fun equal => here (UInt32.toNat_inj.mp equal)]
      exact refines.disk z
  · exact update_of_ne (fun equal => other (UInt32.toNat_inj.mp equal)) ..
  · exact update_self ..
  · unfold Bcache.Has
    rw [Bcache.buf_setBuf, if_pos rfl]
    exact ⟨isDev, rfl⟩
  · rw [Bcache.buf_setBuf, if_pos rfl]
    exact held
  · rw [Bcache.buf_setBuf, if_neg other]

theorem Refines.brelse (refines : Refines s v) (done : s.brelse b = .ok s') :
    Refines s' v ∧ ∀ b', b' ≠ b → s'.cache.buf b' = s.cache.buf b' := by
  obtain ⟨c, released, rest⟩ := bind_eq_ok.mp done
  cases rest
  have bufs := (Bcache.buf_brelse released).2
  have look :
      ∀ b', c.buf b' = if b' = b then { s.cache.buf b with busy := false } else s.cache.buf b' :=
    fun b' => by rw [bufs, Bcache.buf_setBuf]
  have fields : ∀ b', (c.buf b').dev = (s.cache.buf b').dev ∧
    (c.buf b').sector = (s.cache.buf b').sector ∧
      (c.buf b').valid = (s.cache.buf b').valid ∧ (c.buf b').dirty = (s.cache.buf b').dirty ∧
      (c.buf b').data = (s.cache.buf b').data ∧
      ((c.buf b').busy = true → (s.cache.buf b').busy = true) := by
    intro b'
    rw [look]
    split_ifs with here
    · rw [here]
      exact ⟨rfl, rfl, rfl, rfl, rfl, nofun⟩
    · exact ⟨rfl, rfl, rfl, rfl, rfl, id⟩
  have has : ∀ b' z, c.Has b' z ↔ s.cache.Has b' z := fun b' z => by
    unfold Bcache.Has
    rw [(fields b').1, (fields b').2.1]
  have dirty : ∀ z, s.Dirty z → Dirty { s with cache := c } z := fun z ⟨b', has', is⟩ =>
    ⟨b', (has b' z).mpr has', (fields b').2.2.2.1.trans is⟩
  refine ⟨⟨refines.formed.brelse released, fun b' is => ?_, fun b' z has' => ?_, refines.disk,
    fun z => (refines.clean z).imp_right (dirty z), refines.pinned,
    fun z is => dirty z (refines.unwritten z is)⟩, fun b' other => ?_⟩
  · show (c.buf b').dev = 1 ∧ (c.buf b').valid = true
    rw [(fields b').1, (fields b').2.2.1]
    refine refines.known b' (is.imp (fields b').2.2.2.2.2 fun inUse => ?_)
    rwa [← (fields b').1]
  · exact (fields b').2.2.2.2.1.trans (refines.data b' z ((has b' z).mp has'))
  · exact (look b').trans (if_neg other)

theorem Refines.logWrite {log' : Log} (refines : Refines s v) (has : s.cache.Has b x)
    (done : logWrite log (s.store b data) b = .ok (log', s')) :
    Refines s' (v.store x.toNat data) ∧ log.write x = .ok log' := by
  have same :
      (s.cache.setBuf b { s.cache.buf b with data }).buf b = { s.cache.buf b with data } := by
    rw [Bcache.buf_setBuf, if_pos rfl]
  obtain ⟨isDev, rfl⟩ := has
  unfold Bio.logWrite at done
  simp only [store, same, Bcache.setBuf_setBuf] at done
  split at done
  · cases done
  · next grown =>
    cases done
    refine ⟨refines.modify ⟨isDev, rfl⟩ isDev rfl (refines.valid b isDev)
      (v.store_view _ _) refines.disk
      (fun _ _ => rfl) (.inr rfl) refines.pinned fun z is => ?_, grown⟩
    by_cases here : z = (s.cache.buf b).sector
    · exact .inr ⟨here, rfl⟩
    · exact .inl ⟨here, is.resolve_left here⟩

theorem Refines.breads {s₁ : Bio} {b₁ : Bslot} {y : UInt32} (refines : Refines s v)
    (one : s.bread x = .ok (b₁, s₁)) (two : s₁.bread y = .ok (b, s')) :
    Refines s' ((v.bread x.toNat).2.bread y.toNat).2 ∧ s'.cache.Has b₁ x ∧ s'.cache.Has b y ∧
      (s'.cache.buf b₁).data = (v.bread x.toNat).1 ∧
      (s'.cache.buf b).data = ((v.bread x.toNat).2.bread y.toNat).1 := by
  obtain ⟨refines₁, has₁, _, busy, _⟩ := refines.bread one
  obtain ⟨refines₂, has₂, free, _, others⟩ := refines₁.bread two
  have other : b₁ ≠ b := by
    rintro rfl
    exact Bool.false_ne_true (free.symm.trans busy)
  have has : s'.cache.Has b₁ x := by
    unfold Bcache.Has
    rw [others b₁ other]
    exact has₁
  refine ⟨refines₂, has, has₂, ?_, ?_⟩
  · rw [refines₂.data b₁ x has, Bufs.bread_view, Bufs.bread_view, Bufs.bread_fst]
  · rw [refines₂.data b y has₂, Bufs.bread_view, Bufs.bread_view, Bufs.bread_fst, Bufs.bread_view]

theorem Refines.writeLogFrom {start tail : Nat} {xs : List UInt32} (refines : Refines s v)
    (fits : start + tail + xs.length < 2 ^ 32) (done : Bio.writeLogFrom start tail xs s = .ok s') :
    Refines s' (Log.writeLogFrom start tail xs v) := by
  induction xs generalizing tail s v with
  | nil =>
    cases done
    exact refines
  | cons x xs ih =>
    rw [List.length_cons] at fits
    have sector : (UInt32.ofNat (start + tail + 1)).toNat = start + tail + 1 :=
      UInt32.toNat_ofNat_of_lt' (show start + tail + 1 < 2 ^ 32 by omega)
    obtain ⟨⟨toBuf, s₁⟩, one, done⟩ := bind_eq_ok.mp done
    obtain ⟨⟨fromBuf, s₂⟩, two, done⟩ := bind_eq_ok.mp done
    obtain ⟨s₃, written, done⟩ := bind_eq_ok.mp done
    obtain ⟨s₄, released, done⟩ := bind_eq_ok.mp done
    obtain ⟨s₅, released', done⟩ := bind_eq_ok.mp done
    obtain ⟨refines₂, has, _, toData, fromData⟩ := refines.breads one two
    simp only [toData, fromData] at written
    obtain ⟨refines₃, _⟩ := refines₂.bwrite has written
    have refines₅ := (refines₃.brelse released).1.brelse released'
    rw [sector] at refines₅
    exact ih refines₅.1 (by omega) done

theorem Refines.installFrom {start tail : Nat} {xs : List UInt32} (refines : Refines s v)
    (fits : start + tail + xs.length < 2 ^ 32) (done : Bio.installFrom start tail xs s = .ok s') :
    Refines s' (Log.installFrom start tail xs v) := by
  induction xs generalizing tail s v with
  | nil =>
    cases done
    exact refines
  | cons x xs ih =>
    rw [List.length_cons] at fits
    have sector : (UInt32.ofNat (start + tail + 1)).toNat = start + tail + 1 :=
      UInt32.toNat_ofNat_of_lt' (show start + tail + 1 < 2 ^ 32 by omega)
    obtain ⟨⟨lbuf, s₁⟩, one, done⟩ := bind_eq_ok.mp done
    obtain ⟨⟨dbuf, s₂⟩, two, done⟩ := bind_eq_ok.mp done
    obtain ⟨s₃, written, done⟩ := bind_eq_ok.mp done
    obtain ⟨s₄, released, done⟩ := bind_eq_ok.mp done
    obtain ⟨s₅, released', done⟩ := bind_eq_ok.mp done
    obtain ⟨refines₂, _, has, logData, homeData⟩ := refines.breads one two
    simp only [logData, homeData] at written
    obtain ⟨refines₃, _⟩ := refines₂.bwrite has written
    have refines₅ := (refines₃.brelse released).1.brelse released'
    rw [sector] at refines₅
    exact ih refines₅.1 (by omega) done

theorem Refines.writeHead (refines : Refines s v) (fits : log.start < 2 ^ 32)
    (done : Bio.writeHead log s = .ok s') : Refines s' (log.writeHead v) := by
  have sector : (UInt32.ofNat log.start).toNat = log.start := UInt32.toNat_ofNat_of_lt' fits
  obtain ⟨⟨buf, s₁⟩, one, done⟩ := bind_eq_ok.mp done
  obtain ⟨s₂, written, released⟩ := bind_eq_ok.mp done
  obtain ⟨refines₁, has, _⟩ := refines.bread one
  have data := refines₁.data buf _ has
  rw [Bufs.bread_view, ← Bufs.bread_fst] at data
  simp only [data] at written
  obtain ⟨refines₂, _⟩ := refines₁.bwrite has written
  have refines₃ := (refines₂.brelse released).1
  rw [sector] at refines₃
  exact refines₃

theorem Refines.commit {log' : Log} (refines : Refines s v) (fits : log.start + log.lh.n < 2 ^ 32)
    (done : Bio.commit log s = .ok (log', s')) :
    Refines s' (log.commit v).2 ∧ log' = { log with lh := LogHeader.empty } := by
  have fits' : log.start + 0 + log.lh.sector.length < 2 ^ 32 := fits
  unfold Bio.commit at done
  rw [← log.commit_fst v]
  unfold Log.commit
  split_ifs at done ⊢ with some'
  · obtain ⟨s₁, first, done⟩ := bind_eq_ok.mp done
    obtain ⟨s₂, second, done⟩ := bind_eq_ok.mp done
    obtain ⟨s₃, third, done⟩ := bind_eq_ok.mp done
    obtain ⟨s₄, fourth, done⟩ := bind_eq_ok.mp done
    cases done
    have logged := (refines.writeLogFrom fits' first).writeHead (by omega) second
    exact ⟨(logged.installFrom fits' third).writeHead (show log.start < 2 ^ 32 by omega) fourth,
      rfl⟩
  · cases done
    exact ⟨refines, rfl⟩

end Refines

end Bio

end Xv6
