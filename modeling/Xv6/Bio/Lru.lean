/-
**The replacement of buffers is least-recently-released.**

Along any history of `bget` and `brelse` calls the list of the cache stays in the order of the last
releases, the latest in front and the buffers that were never released at the end (`Sorted`),
wherever the busy and the dirty buffers stand in it. `bget` scans from the end, so it recycles the
buffer that was released longest ago.
-/

import Xv6.Bio.Basic

namespace Xv6

open Lib

/-- What happens to the cache: a call, or a change of the contents and flags of a buffer by `iderw`,
`bwrite` or `log_write` between two calls. -/
inductive Bop
  | bget (dev sector : UInt32)
  | brelse (b : Bslot)
  | touch (b : Bslot) (valid dirty : Bool) (data : Block)

namespace Bcache

/-- One event. A `bget` that sleeps leaves the cache as it is; it scans again later. -/
def step (c : Bcache) : Bop → Except BioStop Bcache
  | .bget dev sector =>
    match c.bget dev sector with
    | .ok (_, c) => .ok c
    | .error .sleep => .ok c
    | .error stop => .error stop
  | .brelse b => c.brelse b
  | .touch b valid dirty data => .ok (c.setBuf b { c.buf b with valid, dirty, data })

/-- The events that led from `binit` to a cache, the latest first. -/
inductive History : List Bop → Bcache → Prop
  | binit : History [] binit
  | step {past : List Bop} {c c' : Bcache} (op : Bop) (before : History past c)
    (done : c.step op = .ok c') :
    History (op :: past) c'

/-- Does the event release `b`? -/
def releases (b : Bslot) : Bop → Bool
  | .brelse b' => decide (b' = b)
  | _ => false

/-- When `b` was released last: `n` for the `n`-th event, and `0` for never. -/
def lastRelease (b : Bslot) : List Bop → Nat
  | [] => 0
  | op :: past => if releases b op = true then past.length + 1 else lastRelease b past

variable {past : List Bop} {c c' : Bcache} {l : List Bnode} {b b' : Bslot} {dev sector : UInt32}

theorem lastRelease_le (b : Bslot) (past : List Bop) : lastRelease b past ≤ past.length := by
  induction past with
  | nil => exact le_rfl
  | cons op past ih =>
    unfold lastRelease
    split
    · exact le_rfl
    · exact ih.trans (Nat.le_succ _)

/-- `b` was never released, and neither was `b'`; or `b` was released before `b'` was released
last. -/
def Older (past : List Bop) (b b' : Bslot) : Prop :=
  lastRelease b past = 0 ∧ lastRelease b' past = 0 ∨ lastRelease b past < lastRelease b' past

/-- The buffer at `x` was released after the one at `y`. -/
def Newer (past : List Bop) (x y : Bnode) : Prop :=
  ∀ b b', x = some b → y = some b' → Older past b' b

/-- **The order of the list** is that of the last releases. -/
def Sorted (past : List Bop) (c : Bcache) : Prop := ∃ l, c.Listed l ∧ l.Pairwise (Newer past)

theorem lastRelease_cons {op : Bop} (other : releases b op = false) :
    lastRelease b (op :: past) = lastRelease b past :=
  if_neg (by rw [other]; exact Bool.false_ne_true)

theorem Older.keep {op : Bop} (older : Older past b b') (other : releases b op = false)
    (other' : releases b' op = false) : Older (op :: past) b b' := by
  unfold Older
  rw [lastRelease_cons other, lastRelease_cons other']
  exact older

theorem Sorted.keep {op : Bop} (sorted : Sorted past c) (links : c'.links = c.links)
    (other : ∀ b, releases b op = false) : Sorted (op :: past) c' := by
  obtain ⟨l, listed, order⟩ := sorted
  refine ⟨l, ?_, order.imp fun newer b b' isX isY => (newer b b' isX isY).keep (other _) (other _)⟩
  unfold Listed
  rw [links]
  exact listed

theorem Sorted.brelse (sorted : Sorted past c) (done : c.brelse b = .ok c') :
    Sorted (.brelse b :: past) c' := by
  obtain ⟨l, listed, order⟩ := sorted
  obtain ⟨l₁, l₂, rfl, listed'⟩ := listed.brelse_front done
  have distinct := (List.nodup_cons.mp listed'.1.nodup).2
  have other : ∀ b', some b' ∈ l₁ ++ l₂ → releases b' (.brelse b) = false := fun b' member =>
    decide_eq_false fun same => (List.nodup_cons.mp distinct).1 (same ▸ member)
  refine ⟨_, listed', List.pairwise_cons.mpr ⟨?_, ?_⟩⟩
  · rintro _ member _ b' ⟨⟩ rfl
    have front : lastRelease b (.brelse b :: past) = past.length + 1 := if_pos (decide_eq_true rfl)
    refine .inr ?_
    rw [front, lastRelease_cons (other b' member)]
    exact Nat.lt_succ_of_le (lastRelease_le b' past)
  · have kept :=
      order.sublist ((List.append_sublist_append_left l₁).mpr (List.sublist_cons_self (some b) l₂))
    refine kept.imp_of_mem ?_
    rintro _ _ first second newer b₁ b₂ rfl rfl
    exact (newer b₁ b₂ rfl rfl).keep (other b₂ second) (other b₁ first)

theorem Sorted.bget (sorted : Sorted past c) (done : c.step (.bget dev sector) = .ok c') :
    Sorted (.bget dev sector :: past) c' := by
  refine sorted.keep ?_ fun _ => rfl
  obtain ⟨l, listed, _⟩ := sorted
  rcases listed.bget_cases dev sector
    with ⟨b, _, _, _, got⟩ | ⟨_, _, _, _, got⟩ | ⟨_, ⟨b, _, _, got⟩ | ⟨_, got⟩⟩
  all_goals
    simp only [step, got] at done
    cases done
  all_goals rfl

theorem History.sorted (history : History past c) : Sorted past c := by
  induction history with
  | binit =>
    obtain ⟨l, listed⟩ := listed_binit
    exact ⟨l, listed, List.pairwise_of_forall fun _ _ _ _ _ _ => .inl ⟨rfl, rfl⟩⟩
  | step op _ done ih =>
    cases op with
    | bget dev sector => exact ih.bget done
    | brelse b => exact ih.brelse done
    | touch b valid dirty data =>
      cases done
      exact ih.keep rfl fun _ => rfl

theorem Sorted.victim (sorted : Sorted past c) (found : c.victim = some (some b)) (other : b' ≠ b)
    (free : (c.buf b').busy = false) (clean : (c.buf b').dirty = false) : Older past b b' := by
  obtain ⟨l, listed, order⟩ := sorted
  unfold Bcache.victim at found
  rw [listed.1.scan_prev _ listed.length, List.find?_eq_some_iff_append] at found
  obtain ⟨_, after, before, split, passed⟩ := found
  have whole : l = before.reverse ++ some b :: after.reverse := by
    rw [← List.reverse_reverse l, split]
    simp
  subst whole
  have ahead : some b' ∈ before.reverse := by
    rcases List.mem_append.mp (listed.mem b') with front | rest
    · exact front
    · rcases List.mem_cons.mp rest with same | behind
      · exact absurd (Option.some.inj same) other
      · have skipped := passed _ (List.mem_reverse.mp behind)
        rw [recyclable, free, clean] at skipped
        cases skipped
  exact (List.pairwise_append.mp order).2.2 _ ahead _ List.mem_cons_self _ _ rfl rfl

/-- **`bget` recycles the buffer released longest ago.** After any history, a `bget` of a sector
that no buffer has, while some buffer is neither busy nor dirty, takes one of those: one that was
never released if there is one, and otherwise the one whose last release is the oldest. -/
theorem bget_recycles_oldest (past : List Bop) (c : Bcache) (dev sector : UInt32)
    (history : History past c) (uncached : ∀ b, ¬ ((c.buf b).dev = dev ∧ (c.buf b).sector = sector))
    (some' : ∃ b, (c.buf b).busy = false ∧ (c.buf b).dirty = false) :
    ∃ b, (c.buf b).busy = false ∧ (c.buf b).dirty = false ∧
      c.bget dev sector =
        .ok (b,
          c.setBuf b { c.buf b with dev, sector, busy := true, valid := false, dirty := false }) ∧
      ∀ b', b' ≠ b → (c.buf b').busy = false → (c.buf b').dirty = false →
        lastRelease b past = 0 ∧ lastRelease b' past = 0 ∨
        lastRelease b past < lastRelease b' past := by
  obtain ⟨l, listed, order⟩ := history.sorted
  obtain ⟨b₀, free₀, clean₀⟩ := some'
  have missed : c.lookup dev sector = none := by
    cases found : c.lookup dev sector with
    | none => rfl
    | some n =>
      obtain ⟨b, _, here⟩ := listed.lookup_some found
      exact absurd here (uncached b)
  cases recycled : c.victim with
  | none =>
    rcases listed.victim_none recycled b₀ with busy | dirty
    · exact absurd (free₀.symm.trans busy) Bool.false_ne_true
    · exact absurd (clean₀.symm.trans dirty) Bool.false_ne_true
  | some n =>
    obtain ⟨b, rfl, free, clean⟩ := listed.victim_some recycled
    refine ⟨b, free, clean, ?_, fun b' other free' clean' => ?_⟩
    · unfold Bcache.bget
      rw [missed, recycled]
    · exact Sorted.victim ⟨l, listed, order⟩ recycled other free' clean'

/-- The cache after `bget` of one sector and the release of its buffer. -/
def usedOnce : Bcache :=
  let c := binit.setBuf 0 { binit.buf 0 with dev := 1, sector := 5, busy := true }
  { c.setBuf 0 { c.buf 0 with busy := false } with
    links := (c.links.unlink (some 0)).push none (some 0) }

set_option maxRecDepth 20000 in
theorem history_usedOnce : History [.brelse 0, .bget 1 5] usedOnce :=
  .step _ (.step _ .binit rfl) rfl

/-- The released buffer is not the next one that is recycled. -/
theorem bget_recycles_oldest_usedOnce : ∃ b, b ≠ 0 ∧ usedOnce.bget 1 6 = .ok (b, usedOnce.setBuf b
    { usedOnce.buf b with
    dev := 1, sector := 6, busy := true, valid := false, dirty := false }) := by
  obtain ⟨b, _, _, got, oldest⟩ :=
    bget_recycles_oldest _ usedOnce 1 6 history_usedOnce (by decide +kernel)
    ⟨0, by decide +kernel⟩
  refine ⟨b, ?_, got⟩
  rintro rfl
  rcases oldest 1 (by decide) (by decide +kernel) (by decide +kernel) with ⟨never, _⟩ | less
  · cases never
  · cases less

end Bcache

end Xv6
