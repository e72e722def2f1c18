/-
**The buffer cache, `bio.c`, over the disk in memory, `memide.c`.**

The cache has `NBUF` buffers in a circular list, the most recently released one behind the head.
`bget` finds the buffer of a sector or recycles one that is neither busy nor dirty, from the far end
of the list. `iderw` transfers a buffer at once. A call that sleeps returns `BioStop.sleep`; the
caller scans again when it wakes up.
-/

import Xv6.Block
import Xv6.Lib.Circle
import Xv6.Lib.Run

namespace Xv6

open Lib Function

def NBUF : Nat := MAXOPBLOCKS * 3

instance : NeZero NBUF := ⟨by decide⟩

/-- `struct buf`, but for its links; the flags are `B_BUSY`, `B_VALID` and `B_DIRTY`. -/
structure Buf where
  busy : Bool
  valid : Bool
  dirty : Bool
  dev : UInt32
  sector : UInt32
  data : Block

abbrev Bslot := Fin NBUF

/-- A node of the list: a buffer, or `&bcache.head`. -/
abbrev Bnode := Option Bslot

structure Bcache where
  buf : Bslot → Buf
  links : Links Bnode

/-- Why a call does not return: the panics of `bio.c`, of the disk drivers and of `log.c`, and
`sleep`. -/
inductive BioStop
  | bgetNoBuffers
  | bwrite
  | brelse
  | iderwNotBusy
  | iderwNothingToDo
  | iderwNotDisk1
  | iderwOutOfRange
  | iderwDisk1NotPresent
  | idestart
  /-- A loop over a list does not end. -/
  | loop
  | log (panic : Panic)
  | sleep
  /-- No process does this. -/
  | disabled
  deriving DecidableEq

/-- A disk and the number of its sectors. -/
structure Memdisk where
  sectors : UInt32 → Block
  disksize : UInt32

def Memdisk.write (d : Memdisk) (sector : UInt32) (data : Block) : Memdisk :=
  { d with sectors := update d.sectors sector data }

/-- `iderw` of `memide.c`. -/
def Memdisk.iderw (d : Memdisk) (b : Buf) : Except BioStop (Buf × Memdisk) :=
  if b.busy = false then .error .iderwNotBusy
  else if b.valid = true ∧ b.dirty = false then .error .iderwNothingToDo
  else if b.dev ≠ 1 then .error .iderwNotDisk1
  else if d.disksize ≤ b.sector then .error .iderwOutOfRange
  else if b.dirty =
    true then .ok ({ b with dirty := false, valid := true }, d.write b.sector b.data)
  else .ok ({ b with data := d.sectors b.sector, valid := true }, d)

/-- **What `iderw` does**: it writes a dirty buffer and reads one that is not valid. -/
theorem Memdisk.iderw_eq_ok {d d' : Memdisk} {x x' : Buf} : d.iderw x = .ok (x', d') ↔
    x.busy = true ∧ ¬ (x.valid = true ∧ x.dirty = false) ∧ x.dev = 1 ∧ ¬ d.disksize ≤ x.sector ∧
      (x.dirty = true ∧ x' = { x with dirty := false, valid := true } ∧
      d' = d.write x.sector x.data ∨
        x.dirty = false ∧ x' = { x with data := d.sectors x.sector, valid := true } ∧ d' = d) := by
  constructor
  · intro done
    unfold Memdisk.iderw at done
    split at done
    · cases done
    next held =>
    split at done
    · cases done
    next todo =>
    split at done
    · cases done
    next disk1 =>
    split at done
    · cases done
    next inside =>
    refine ⟨Bool.eq_true_of_not_eq_false held, todo, not_not.mp disk1, inside, ?_⟩
    split at done
    · next dirty =>
      cases done
      exact .inl ⟨dirty, rfl, rfl⟩
    · next clean =>
      cases done
      exact .inr ⟨Bool.eq_false_of_not_eq_true clean, rfl, rfl⟩
  · rintro ⟨held, todo, disk1, inside, what⟩
    unfold Memdisk.iderw
    rw [if_neg (by rw [held]; exact Bool.noConfusion), if_neg todo, if_neg (not_not.mpr disk1),
      if_neg inside]
    rcases what with ⟨dirty, rfl, rfl⟩ | ⟨clean, rfl, rfl⟩
    · rw [if_pos dirty]
    · rw [if_neg (by rw [clean]; exact Bool.noConfusion)]

namespace Bcache

def setBuf (c : Bcache) (b : Bslot) (x : Buf) : Bcache := { c with buf := update c.buf b x }

/-- A buffer as the loader leaves it. -/
def zeroBuf : Buf := ⟨false, false, false, 0, 0, .zero⟩

/-- One turn of the loop of `binit`. -/
def enlist (c : Bcache) (b : Bslot) : Bcache :=
  { c.setBuf b { c.buf b with dev := -1 } with links := c.links.push none (some b) }

/-- `binit`: the buffers are put behind the head one by one. -/
def binit : Bcache :=
  (List.finRange NBUF).foldl enlist ⟨fun _ => zeroBuf, ⟨fun _ => none, fun _ => none⟩⟩

/-- `b->dev == dev && b->sector == sector`. -/
def caches (c : Bcache) (dev sector : UInt32) : Bnode → Bool
  | none => false
  | some b => decide ((c.buf b).dev = dev ∧ (c.buf b).sector = sector)

/-- `(b->flags & B_BUSY) == 0 && (b->flags & B_DIRTY) == 0`. -/
def recyclable (c : Bcache) : Bnode → Bool
  | none => false
  | some b => !(c.buf b).busy && !(c.buf b).dirty

/-- The first loop of `bget`. -/
def lookup (c : Bcache) (dev sector : UInt32) : Option Bnode :=
  Links.scan c.links.next none (c.caches dev sector) (NBUF + 1) (c.links.next none)

/-- The second loop of `bget`. -/
def victim (c : Bcache) : Option Bnode :=
  Links.scan c.links.prev none c.recyclable (NBUF + 1) (c.links.prev none)

/-- `bget`, from `loop` on. -/
def bget (c : Bcache) (dev sector : UInt32) : Except BioStop (Bslot × Bcache) :=
  match c.lookup dev sector with
  | some (some b) =>
    if (c.buf b).busy = false then .ok (b, c.setBuf b { c.buf b with busy := true })
      else .error .sleep
  | _ =>
    match c.victim with
    | some (some b) =>
      .ok (b, c.setBuf b { c.buf b with dev, sector, busy := true, valid := false, dirty := false })
    | _ => .error .bgetNoBuffers

/-- `iderw` of a buffer of the cache. -/
def iderw (c : Bcache) (d : Memdisk) (b : Bslot) : Except BioStop (Bcache × Memdisk) := do
  let (x, d) ← d.iderw (c.buf b)
  return (c.setBuf b x, d)

/-- `bread`. -/
def bread (c : Bcache) (d : Memdisk) (dev sector : UInt32) :
    Except BioStop (Bslot × Bcache × Memdisk) := do
  let (b, c) ← c.bget dev sector
  if (c.buf b).valid = false then
    let (c, d) ← c.iderw d b
    return (b, c, d)
  else return (b, c, d)

/-- The part of `bwrite` before `iderw`. -/
def bwriteDirty (c : Bcache) (b : Bslot) : Except BioStop Bcache :=
  if (c.buf b).busy = false then .error .bwrite
  else .ok (c.setBuf b { c.buf b with dirty := true })

/-- `bwrite`. -/
def bwrite (c : Bcache) (d : Memdisk) (b : Bslot) : Except BioStop (Bcache × Memdisk) := do
  let c ← c.bwriteDirty b
  c.iderw d b

/-- `brelse`: the buffer moves behind the head. -/
def brelse (c : Bcache) (b : Bslot) : Except BioStop Bcache :=
  if (c.buf b).busy = false then .error .brelse
  else .ok { c.setBuf b { c.buf b with busy := false } with
    links := (c.links.unlink (some b)).push none (some b) }

/-! ### The list of buffers -/

/-- **The list** is a circle through all buffers, each once. -/
def Listed (c : Bcache) (l : List Bnode) : Prop :=
  c.links.Circle none l ∧ l.Perm ((List.finRange NBUF).map some)

section Listed

variable {c c' : Bcache} {l : List Bnode} {b : Bslot} {dev sector : UInt32}

theorem Listed.mem (listed : c.Listed l) (b : Bslot) : some b ∈ l :=
  listed.2.mem_iff.mpr (List.mem_map_of_mem (List.mem_finRange b))

theorem Listed.length (listed : c.Listed l) : l.length < NBUF + 1 := by
  rw [listed.2.length_eq, List.length_map, List.length_finRange]
  exact Nat.lt_succ_self _

theorem Listed.find_some {P : Bnode → Bool} {order : List Bnode} {found : Bnode}
    (found' : order.find? P = some found) (head : P none = false) :
    ∃ b, found = some b ∧ P (some b) = true := by
  cases found with
  | none => exact absurd (head.symm.trans (List.find?_some found')) Bool.false_ne_true
  | some b => exact ⟨b, rfl, List.find?_some found'⟩

theorem Listed.lookup_some (listed : c.Listed l) {n : Bnode}
    (found : c.lookup dev sector = some n) :
    ∃ b, n = some b ∧ (c.buf b).dev = dev ∧ (c.buf b).sector = sector := by
  unfold lookup at found
  rw [listed.1.scan_next _ listed.length] at found
  obtain ⟨b, rfl, here⟩ := Listed.find_some found rfl
  exact ⟨b, rfl, of_decide_eq_true here⟩

theorem Listed.lookup_none (listed : c.Listed l) (none' : c.lookup dev sector = none) (b : Bslot) :
    ¬ ((c.buf b).dev = dev ∧ (c.buf b).sector = sector) := by
  unfold lookup at none'
  rw [listed.1.scan_next _ listed.length] at none'
  intro here
  exact List.find?_eq_none.mp none' (some b) (listed.mem b) (decide_eq_true here)

theorem Listed.victim_some (listed : c.Listed l) {n : Bnode} (found : c.victim = some n) :
    ∃ b, n = some b ∧ (c.buf b).busy = false ∧ (c.buf b).dirty = false := by
  unfold victim at found
  rw [listed.1.scan_prev _ listed.length] at found
  obtain ⟨b, rfl, here⟩ := Listed.find_some found rfl
  obtain ⟨busy, dirty⟩ := (Bool.and_eq_true _ _).mp here
  exact ⟨b, rfl, (Bool.not_eq_true' _).mp busy, (Bool.not_eq_true' _).mp dirty⟩

theorem Listed.victim_none (listed : c.Listed l) (none' : c.victim = none) (b : Bslot) :
    (c.buf b).busy = true ∨ (c.buf b).dirty = true := by
  unfold victim at none'
  rw [listed.1.scan_prev _ listed.length] at none'
  have here := List.find?_eq_none.mp none' (some b) (List.mem_reverse.mpr (listed.mem b))
  by_contra free
  rw [not_or, Bool.not_eq_true, Bool.not_eq_true] at free
  refine here ?_
  show (!(c.buf b).busy && !(c.buf b).dirty) = true
  rw [free.1, free.2]
  rfl

/-- **What `bget` does**: it returns the buffer of the sector, recycles one, sleeps or panics. -/
theorem Listed.bget_cases (listed : c.Listed l) (dev sector : UInt32) :
    (∃ b, (c.buf b).dev = dev ∧ (c.buf b).sector = sector ∧ (c.buf b).busy = false ∧
      c.bget dev sector = .ok (b, c.setBuf b { c.buf b with busy := true })) ∨
    (∃ b, (c.buf b).dev = dev ∧ (c.buf b).sector = sector ∧ (c.buf b).busy = true ∧
      c.bget dev sector = .error .sleep) ∨
    (∀ b, ¬ ((c.buf b).dev = dev ∧ (c.buf b).sector = sector)) ∧
      ((∃ b, (c.buf b).busy = false ∧ (c.buf b).dirty = false ∧ c.bget dev sector =
          .ok (b,
          c.setBuf b { c.buf b with dev, sector, busy := true, valid := false, dirty := false })) ∨
        (∀ b, (c.buf b).busy = true ∨ (c.buf b).dirty = true) ∧
        c.bget dev sector = .error .bgetNoBuffers) := by
  unfold bget
  cases found : c.lookup dev sector with
  | some n =>
    obtain ⟨b, rfl, isDev, isSector⟩ := listed.lookup_some found
    simp only
    by_cases free : (c.buf b).busy = false
    · rw [if_pos free]
      exact .inl ⟨b, isDev, isSector, free, rfl⟩
    · rw [if_neg free]
      exact .inr (.inl ⟨b, isDev, isSector, Bool.eq_true_of_not_eq_false free, rfl⟩)
  | none =>
    refine .inr (.inr ⟨listed.lookup_none found, ?_⟩)
    simp only
    cases recycled : c.victim with
    | some n =>
      obtain ⟨b, rfl, free, clean⟩ := listed.victim_some recycled
      exact .inl ⟨b, free, clean, rfl⟩
    | none => exact .inr ⟨listed.victim_none recycled, rfl⟩

theorem Listed.brelse_front (listed : c.Listed l) (done : c.brelse b = .ok c') :
    ∃ l₁ l₂, l = l₁ ++ some b :: l₂ ∧ c'.Listed (some b :: (l₁ ++ l₂)) := by
  unfold Bcache.brelse at done
  split at done
  · cases done
  · cases done
    obtain ⟨l₁, l₂, rfl⟩ := List.append_of_mem (listed.mem b)
    have gone : some b ∉ none :: (l₁ ++ l₂) := by
      have distinct := (List.nodup_cons.mp listed.1.nodup).2
      have front := List.perm_middle.nodup_iff.mp distinct
      rw [List.mem_cons, not_or]
      exact ⟨nofun, (List.nodup_cons.mp front).1⟩
    exact ⟨l₁, l₂, rfl, listed.1.unlink.push gone, List.perm_middle.symm.trans listed.2⟩

theorem Listed.brelse (listed : c.Listed l) (done : c.brelse b = .ok c') : ∃ l, c'.Listed l := by
  obtain ⟨_, _, _, listed'⟩ := listed.brelse_front done
  exact ⟨_, listed'⟩

theorem listed_binit : ∃ l, binit.Listed l := by
  have general : ∀ (bs : List Bslot) (c : Bcache) (l : List Bnode), c.links.Circle none l →
      bs.Nodup → (∀ b ∈ bs, some b ∉ l) →
      ∃ l', (bs.foldl enlist c).links.Circle none l' ∧ l'.Perm (bs.map some ++ l) := by
    intro bs
    induction bs with
    | nil => exact fun c l circle _ _ => ⟨l, circle, List.Perm.refl _⟩
    | cons b bs ih =>
      intro c l circle distinct fresh
      obtain ⟨first, rest⟩ := List.nodup_cons.mp distinct
      have new : some b ∉ none :: l := by
        rw [List.mem_cons, not_or]
        exact ⟨nofun, fresh b List.mem_cons_self⟩
      obtain ⟨l', circle', perm⟩ :=
        ih (c.enlist b) (some b :: l) (circle.push new) rest fun b' member => by
        rw [List.mem_cons, not_or]
        refine ⟨fun same => first ?_, fresh b' (List.mem_cons_of_mem _ member)⟩
        exact Option.some.inj same ▸ member
      exact ⟨l', circle', perm.trans List.perm_middle⟩
  have empty : (⟨fun _ => none, fun _ => none⟩ : Links Bnode).Circle none [] :=
    ⟨⟨rfl, rfl⟩, by simp⟩
  obtain ⟨l, circle, perm⟩ :=
    general (List.finRange NBUF) ⟨fun _ => zeroBuf, ⟨fun _ => none, fun _ => none⟩⟩
    [] empty (List.nodup_finRange _) fun _ _ => List.not_mem_nil
  rw [List.append_nil] at perm
  exact ⟨l, circle, perm⟩

end Listed

/-! ### The buffers of the sectors -/

theorem buf_setBuf (c : Bcache) (b b' : Bslot) (x : Buf) :
    (c.setBuf b x).buf b' = if b' = b then x else c.buf b' := update_apply ..

theorem setBuf_setBuf (c : Bcache) (b : Bslot) (x y : Buf) :
    (c.setBuf b x).setBuf b y = c.setBuf b y := by
  unfold setBuf
  simp only [update_idem]

/-- **The representation invariant**: the list has all buffers, and no two of them have a sector in
common. -/
structure WellFormed (c : Bcache) : Prop where
  listed : ∃ l, c.Listed l
  unique : ∀ b b', (c.buf b).dev ≠ -1 → (c.buf b').dev = (c.buf b).dev →
    (c.buf b').sector = (c.buf b).sector → b' = b

section WellFormed

variable {c c' : Bcache} {b : Bslot} {x : Buf}

theorem WellFormed.setBuf (formed : c.WellFormed) (key : ∀ b', b' ≠ b → x.dev ≠ -1 →
    ¬ ((c.buf b').dev = x.dev ∧ (c.buf b').sector = x.sector)) : (c.setBuf b x).WellFormed := by
  refine ⟨formed.listed, fun b₁ b₂ known isDev isSector => ?_⟩
  rw [buf_setBuf] at known isDev isSector
  rw [buf_setBuf] at isDev isSector
  by_cases first : b₁ = b
  · rw [if_pos first] at known isDev isSector
    by_cases second : b₂ = b
    · rw [first, second]
    · rw [if_neg second] at isDev isSector
      exact absurd ⟨isDev, isSector⟩ (key b₂ second known)
  · rw [if_neg first] at known isDev isSector
    by_cases second : b₂ = b
    · rw [if_pos second] at isDev isSector
      exact absurd ⟨isDev.symm, isSector.symm⟩ (key b₁ first (isDev ▸ known))
    · rw [if_neg second] at isDev isSector
      exact formed.unique b₁ b₂ known isDev isSector

theorem WellFormed.keep (formed : c.WellFormed) (isDev : x.dev = (c.buf b).dev)
    (isSector : x.sector = (c.buf b).sector) : (c.setBuf b x).WellFormed :=
  formed.setBuf fun b' other known here =>
    other (formed.unique b b' (isDev ▸ known) (here.1.trans isDev) (here.2.trans isSector))

/-- The buffer `b` is the one of a sector of the disk. -/
def Has (c : Bcache) (b : Bslot) (sector : UInt32) : Prop :=
  (c.buf b).dev = 1 ∧ (c.buf b).sector = sector

theorem WellFormed.has_unique (formed : c.WellFormed) {b' : Bslot} {sector : UInt32}
    (one : c.Has b sector) (two : c.Has b' sector) : b' = b := by
  refine formed.unique b b' ?_ (two.1.trans one.1.symm) (two.2.trans one.2.symm)
  rw [one.1]
  decide

/-- **What `bread` does** when the buffers in use are valid. -/
theorem WellFormed.bread_ok {d d' : Memdisk} {sector : UInt32} (formed : c.WellFormed)
    (valid : ∀ b, (c.buf b).dev = 1 → (c.buf b).valid = true)
    (done : c.bread d 1 sector = .ok (b, c', d')) :
    ∃ x, c' = c.setBuf b x ∧ d' = d ∧ (c.buf b).busy = false ∧ x.dev = 1 ∧ x.sector = sector ∧
      x.busy = true ∧ x.valid = true ∧
      (c.Has b sector ∧ x.dirty = (c.buf b).dirty ∧ x.data = (c.buf b).data ∨
        (∀ b', ¬ c.Has b' sector) ∧ (c.buf b).dirty = false ∧ x.dirty = false ∧
        x.data = d.sectors sector) := by
  obtain ⟨l, listed⟩ := formed.listed
  obtain ⟨⟨b₁, c₁⟩, got, rest⟩ := bind_eq_ok.mp done
  rcases listed.bget_cases 1 sector with ⟨b₀, isDev, isSector, free, hit⟩ | ⟨_, _, _, _, stop⟩ |
    ⟨uncached, ⟨b₀, free, clean, miss⟩ | ⟨_, stop⟩⟩
  · cases hit.symm.trans got
    have same : ∀ x, (c.setBuf b₁ x).buf b₁ = x := fun x => by rw [buf_setBuf, if_pos rfl]
    simp only at rest
    split at rest
    · next invalid =>
      rw [same] at invalid
      exact absurd (invalid.symm.trans (valid b₁ isDev)) Bool.false_ne_true
    · cases rest
      exact ⟨_, rfl, rfl, free, isDev, isSector, rfl, valid b isDev,
        .inl ⟨⟨isDev, isSector⟩, rfl, rfl⟩⟩
  · cases stop.symm.trans got
  · cases miss.symm.trans got
    have same : ∀ x, (c.setBuf b₁ x).buf b₁ = x := fun x => by rw [buf_setBuf, if_pos rfl]
    simp only at rest
    split at rest
    · obtain ⟨⟨c₂, d₂⟩, transferred, rest⟩ := bind_eq_ok.mp rest
      cases rest
      obtain ⟨⟨x, d₃⟩, read, rest⟩ := bind_eq_ok.mp transferred
      cases rest
      rw [same] at read
      unfold Memdisk.iderw at read
      simp only [Bool.true_eq_false, if_false, Bool.false_eq_true, false_and, ne_eq,
        not_true_eq_false] at read
      split at read
      · cases read
      · cases read
        exact ⟨_, Bcache.setBuf_setBuf .., rfl, free, rfl, rfl, rfl, rfl,
          .inr ⟨uncached, clean, rfl, rfl⟩⟩
    · next valid' =>
      rw [same] at valid'
      exact absurd rfl valid'
  · cases stop.symm.trans got

theorem bwrite_ok {d d' : Memdisk} (done : c.bwrite d b = .ok (c', d')) :
    (c.buf b).busy = true ∧ (c.buf b).dev = 1 ∧
      c' = c.setBuf b { c.buf b with dirty := false, valid := true } ∧
      d' = d.write (c.buf b).sector (c.buf b).data := by
  obtain ⟨c₁, marked, rest⟩ := bind_eq_ok.mp done
  unfold bwriteDirty at marked
  split at marked
  · cases marked
  · next held =>
    cases marked
    obtain ⟨⟨x, d₃⟩, written, rest⟩ := bind_eq_ok.mp rest
    cases rest
    rw [buf_setBuf, if_pos rfl] at written
    unfold Memdisk.iderw at written
    rw [if_neg held, if_neg fun both => Bool.noConfusion both.2] at written
    split at written
    · cases written
    · next disk1 =>
      split at written
      · cases written
      · cases written
        exact ⟨Bool.eq_true_of_not_eq_false held, not_not.mp disk1, Bcache.setBuf_setBuf .., rfl⟩

theorem buf_brelse (done : c.brelse b = .ok c') :
    (c.buf b).busy = true ∧ c'.buf = (c.setBuf b { c.buf b with busy := false }).buf := by
  unfold Bcache.brelse at done
  split at done
  · cases done
  · next held =>
    cases done
    exact ⟨Bool.eq_true_of_not_eq_false held, rfl⟩

theorem WellFormed.brelse (formed : c.WellFormed) (done : c.brelse b = .ok c') : c'.WellFormed := by
  obtain ⟨l, listed⟩ := formed.listed
  refine ⟨listed.brelse done, ?_⟩
  rw [(buf_brelse done).2]
  have kept : (c.setBuf b { c.buf b with busy := false }).WellFormed := formed.keep rfl rfl
  exact kept.unique

theorem buf_binit (b : Bslot) : binit.buf b = { zeroBuf with dev := -1 } := by
  have general : ∀ (bs : List Bslot) (c : Bcache), (∀ b, c.buf b = zeroBuf ∨
      c.buf b = { zeroBuf with dev := -1 }) → ∀ b, (b ∈ bs ∨ c.buf b = { zeroBuf with dev := -1 }) →
      (bs.foldl enlist c).buf b = { zeroBuf with dev := -1 } := by
    intro bs
    induction bs with
    | nil => exact fun c _ b done => done.resolve_left List.not_mem_nil
    | cons a bs ih =>
      intro c either b done
      have set : ∀ b', (c.enlist a).buf b' =
          if b' = a then { c.buf a with dev := -1 } else c.buf b' := fun b' => update_apply ..
      have there : (c.enlist a).buf a = { zeroBuf with dev := -1 } := by
        rw [set, if_pos rfl]
        rcases either a with first | first <;> rw [first]
      refine ih (c.enlist a) (fun b' => ?_) b ?_
      · rw [set]
        split_ifs with here
        · rw [← there, set, if_pos rfl]
          exact .inr rfl
        · exact either b'
      · by_cases here : b = a
        · exact .inr (here ▸ there)
        · rw [set, if_neg here]
          exact done.imp_left fun member => (List.mem_cons.mp member).resolve_left here
  exact general _ _ (fun _ => .inl rfl) b (.inl (List.mem_finRange b))

theorem wellFormed_binit : binit.WellFormed := by
  refine ⟨listed_binit, fun b b' known => ?_⟩
  rw [buf_binit] at known
  exact absurd rfl known

end WellFormed

end Bcache

end Xv6
