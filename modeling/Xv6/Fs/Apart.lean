/-
**The files and the log stay apart.**

`Apart s`: the blocks of the files and the sectors in the log lie before the log. Then a commit
changes no file. `Moves s s' n` says what a function of the file system draws from the free list,
frees and logs; it keeps the two apart if the blocks it draws lie before the log. Nothing in the
source sees to that: `balloc` takes any block whose bit is clear.
-/

import Xv6.Fs.Sectors
import Xv6.Fs.Transaction
import Xv6.Fs.Trunc

namespace Xv6

open Lib

namespace View

/-- The blocks of the files lie before the log. -/
structure Inside (v : View) : Prop where
  layout : v.sb.dataStart ≤ v.sb.logStart
  before : ∀ {place b}, v.own place = some b → b < v.sb.logStart

section Agrees

variable {v v' : View} {i : Nat}

theorem Agrees.live (agrees : v.Agrees v') (i : Nat) : v'.Live i ↔ v.Live i := by
  unfold Live
  rw [agrees.din]

theorem Agrees.slot (agrees : v.Agrees v') (inside : v.Inside) (live : v.Live i) (k : Nat) :
    v'.slot i k = v.slot i k := by
  unfold View.slot
  rw [agrees.din]
  refine slotOf_congr (fun some' => ?_) k
  have some'' : v.slot i MAXFILE ≠ 0 := some'
  exact agrees.data _ (inside.before (own_slot live some''))

theorem Agrees.own (agrees : v.Agrees v') (inside : v.Inside) : v'.own = v.own := by
  funext place
  unfold View.own
  by_cases live : v.Live place.1
  · simp only [agrees.live, agrees.slot inside live]
  · simp only [agrees.live, live, false_and, if_false]

theorem Agrees.inside (agrees : v.Agrees v') (inside : v.Inside) : v'.Inside where
  layout := by
    rw [agrees.sb]
    exact inside.layout
  before := by
    rw [agrees.own inside, agrees.sb]
    exact inside.before

/-- A change behind the files leaves the file system well formed. -/
theorem Agrees.wellFormed (agrees : v.Agrees v') (inside : v.Inside) (wellFormed : v.WellFormed) :
    v'.WellFormed := by
  have own := agrees.own inside
  refine ⟨⟨?_, ?_, ?_⟩, ?_, ?_⟩
  · rw [own, agrees.bit, agrees.sb]
    exact wellFormed.owned.owns
  · rw [own, agrees.sb]
    exact wellFormed.owned.range
  · unfold MetaUsed
    rw [agrees.bit, agrees.sb]
    exact wellFormed.owned.metaUsed
  · intro j live
    rw [agrees.din]
    exact wellFormed.small j ((agrees.live j).mp live)
  · intro j live
    have shaped := wellFormed.shaped j ((agrees.live j).mp live)
    rw [agrees.din]
    refine ⟨shaped.bound, fun k inner => ?_⟩
    rw [agrees.slot inside ((agrees.live j).mp live)]
    exact shaped.slots k inner

theorem Agrees.contents (agrees : v.Agrees v') (inside : v.Inside) (wellFormed : v.WellFormed)
    (live : v.Live i) : v'.contents i = v.contents i := by
  have shaped := wellFormed.shaped i live
  refine contents_congr (by rw [agrees.din]) fun k below => ⟨agrees.slot inside live k, ?_⟩
  have some' : v.slot i k ≠ 0 :=
    (shaped.slots k (below.le.trans shaped.bound)).mpr (.inl below)
  exact agrees.data _ (inside.before (own_slot live some'))

end Agrees

end View

namespace Fs

/-- What a function of the file system may do to the blocks. -/
structure Moves (s s' : Fs) (n : Nat) : Prop where
  sb : s'.readsb = s.readsb
  drawn : ∀ {place b}, s'.view.own place = some b →
    (∃ place', s.view.own place' = some b) ∨ b ∈ s.view.free.take n
  freed : ∀ b ∈ s'.view.free, b ∈ s.view.free ∨ ∃ place, s.view.own place = some b
  logs : ∃ sectors, Logs s s' sectors ∧
    ∀ x ∈ sectors, x < s.readsb.dataStart ∨ ∃ place, s'.view.own place = some x

section Moves

variable {s s' : Fs} {ip ip' : Inode} {n : Nat}

theorem Moves.of_same (sb : s'.readsb = s.readsb) (own : s'.view.own = s.view.own)
    (free : s'.view.free = s.view.free) (logs : s.LogsBelow s' s.readsb.dataStart) (n : Nat) :
    Moves s s' n where
  sb := sb
  drawn owned := .inl ⟨_, own ▸ owned⟩
  freed b member := .inl (free ▸ member)
  logs := by
    obtain ⟨sectors, logged, below⟩ := logs
    exact ⟨sectors, logged, fun x member => .inl (below x member)⟩

theorem Moves.refl (s : Fs) (n : Nat) : Moves s s n := .of_same rfl rfl rfl (.refl s _) n

theorem Moves.setDin {i : Nat} {d : Dinode} (view : s'.view = s.view.setDin i d)
    (own : (s.view.setDin i d).own = s.view.own) (logs : s.LogsBelow s' s.readsb.dataStart) :
    Moves s s' 0 := by
  refine .of_same ?_ (view ▸ own) ?_ logs 0
  · show s'.view.sb = s.view.sb
    rw [view]
    rfl
  · rw [view]
    rfl

theorem Moves.of_removed {i : Nat} (live : s.view.Live i) (removed : s.view.Removed s'.view i)
    (logs : s.LogsBelow s' s.readsb.dataStart) : Moves s s' 0 where
  sb := removed.sb
  drawn := by
    rintro ⟨j, k⟩ b owned
    obtain ⟨live', some', slot⟩ := View.own_eq_some.mp owned
    obtain ⟨other, before⟩ := (removed.live j).mp live'
    refine .inl ⟨(j, k), View.own_eq_some.mpr ⟨before, some', ?_⟩⟩
    rw [← slot]
    exact (removed.slot other k).symm
  freed b member := by
    obtain ⟨within, clear⟩ := View.mem_free.mp member
    rw [removed.sb] at within
    by_cases before : s.view.bit b = true
    · right
      by_contra unowned
      have used : s'.view.bit b = true := (removed.bits b).mpr ⟨before, fun k some' same =>
        unowned ⟨(i, k), same ▸ View.own_slot live some'⟩⟩
      rw [used] at clear
      cases clear
    · exact .inl (View.mem_free.mpr ⟨within, by simpa using before⟩)
  logs := by
    obtain ⟨sectors, logged, below⟩ := logs
    exact ⟨sectors, logged, fun x member => .inl (below x member)⟩

/-- What `writei` draws and logs. -/
theorem Written.moves {off : Nat} {src : List UInt8} {taken sectors : List Nat}
    (locked : Locked s ip) (inside : off ≤ ip.din.size.toNat)
    (bound : off + src.length ≤ MAXFILE * BSIZE)
    (written : Written s s' ip ip' off src taken sectors) :
    Moves s s' (growth (blocks ip) (blocksAfter ip off src.length)) where
  sb := written.effect.sb
  drawn := by
    rintro ⟨j, k⟩ b owned
    obtain ⟨live, some', slot⟩ := View.own_eq_some.mp owned
    have live' := (written.effect.live j).mp live
    rcases written.effect.slots j k live' with same | ⟨_, _, fresh⟩
    · exact .inl ⟨(j, k), View.own_eq_some.mpr ⟨live', some', same ▸ slot⟩⟩
    · right
      rw [← written.count locked, written.effect.free, List.take_left]
      exact slot ▸ fresh
  freed b member := by
    left
    rw [written.effect.free]
    exact List.mem_append_right _ member
  logs := by
    refine ⟨sectors, written.logs, fun x member => ?_⟩
    have top := blocksAfter_le locked bound
    have member' := List.mem_toFinset.mpr member
    rw [written.sectors_eq locked inside bound, Finset.mem_union, Finset.mem_union] at member'
    rcases member' with (bitmap | slot) | inode
    · left
      unfold bitmapSectors at bitmap
      obtain ⟨b, drawn, rfl⟩ := List.mem_map.mp (List.mem_toFinset.mp bitmap)
      exact Superblock.BBLOCK_lt_dataStart (View.mem_free.mp (List.mem_of_mem_take drawn)).1
    · right
      obtain ⟨k, at', rfl⟩ := Finset.mem_image.mp slot
      refine ⟨(ip.inum, k), View.own_slot written.live ?_⟩
      rcases Finset.mem_union.mp at' with data | indirect
      · have below : k < blocksAfter ip off src.length :=
          (mem_spans.mp data).2.1.trans_le (le_max_right _ _)
        exact (written.slots locked (below.le.trans top)).mpr (.inl below)
      · split at indirect
        · next reaches =>
          rw [Finset.mem_singleton.mp indirect]
          exact (written.slots locked le_rfl).mpr (.inr ⟨rfl, reaches.2⟩)
        · exact absurd indirect (Finset.notMem_empty _)
    · left
      split at inode
      · rw [Finset.mem_singleton.mp inode]
        exact Superblock.IBLOCK_lt_dataStart locked.inside
      · exact absurd inode (Finset.notMem_empty _)

end Moves

/-- **The files and the log are apart.** -/
structure Apart (s : Fs) : Prop where
  journaled : s.Journaled
  inside : s.view.Inside

section Apart

variable {s s' : Fs} {n : Nat}

/-- **A step keeps the files and the log apart** if it draws blocks before the log. -/
theorem Apart.moves (apart : s.Apart) (moves : s.Moves s' n)
    (low : ∀ b ∈ s.view.free.take n, b < s.view.sb.logStart) : s'.Apart := by
  have sb : s'.view.sb = s.view.sb := moves.sb
  have before : ∀ {place b}, s'.view.own place = some b → b < s.view.sb.logStart := by
    intro place b owned
    rcases moves.drawn owned with ⟨_, old⟩ | new
    · exact apart.inside.before old
    · exact low b new
  refine ⟨?_, ⟨?_, ?_⟩⟩
  · obtain ⟨sectors, logs, within⟩ := moves.logs
    refine apart.journaled.logs logs moves.sb fun x member => ?_
    rcases within x member with meta' | ⟨_, owned⟩
    · exact meta'.trans_le apart.inside.layout
    · exact before owned
  · rw [sb]
    exact apart.inside.layout
  · rw [sb]
    exact before

theorem Apart.beginOp (apart : s.Apart) (begun : s.beginOp = some s') :
    s'.Apart ∧ s'.view = s.view := by
  unfold Fs.beginOp at begun
  obtain ⟨log, admitted, rfl⟩ := Option.map_eq_some_iff.mp begun
  have kept : log.start = s.log.start ∧ log.lh = s.log.lh := by
    unfold Log.beginOp at admitted
    split at admitted
    · cases admitted
    · split at admitted
      · cases admitted
      · cases admitted
        exact ⟨rfl, rfl⟩
  refine ⟨⟨⟨kept.1.trans apart.journaled.start, ?_, ?_⟩, apart.inside⟩, rfl⟩
  · rw [kept.2]
    exact apart.journaled.distinct
  · rw [kept.2]
    exact apart.journaled.below

/-- A commit changes no file. -/
theorem Apart.endOp (apart : s.Apart) (ended : s.endOp = .ok s') :
    s'.Apart ∧ s.view.Agrees s'.view := by
  by_cases idle : s.log.committing = false
  · by_cases one : s.log.outstanding = 1
    · rw [endOp_last one idle] at ended
      cases ended
      have agrees := apart.journaled.agrees apart.inside.layout
      exact ⟨⟨apart.journaled.committed apart.inside.layout, agrees.inside apart.inside⟩, agrees⟩
    · have more :
          s.log.endOp = .ok (false, { s.log with outstanding := s.log.outstanding - 1 }) := by
        unfold Log.endOp
        simp only [idle]
        rw [if_neg (by simp), if_neg (by omega)]
      unfold Fs.endOp at ended
      rw [more] at ended
      cases ended
      exact ⟨⟨⟨apart.journaled.start, apart.journaled.distinct, apart.journaled.below⟩,
        apart.inside⟩, .refl _⟩
  · have stuck : s.log.endOp = .error .logCommitting := by
      unfold Log.endOp
      simp [idle]
    unfold Fs.endOp at ended
    rw [stuck] at ended
    cases ended

end Apart

end Fs

end Xv6
