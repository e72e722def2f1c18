/-
**The inode cache within a call.**

While a call runs, the references to a slot of the cache are those of its users (open files and
current directories: the `Ledger`) and those of the call itself (a list of `Ref`). `Within k L refs
room` says so; it also says that an inode without links is in the cache, loaded, so that the last
`iput` frees it, and that the first `room` free blocks lie before the log.
-/

import Xv6.Kernel.Dir
import Xv6.Names.Edit
import Xv6.Names.View

namespace Xv6

open Lib Function

/-- Who refers to the slots of the cache between calls, and to which inodes. -/
structure Ledger where
  users : Slot → Nat
  num : Slot → Nat
  ninodes : Nat

/-- A reference of the running call. -/
structure Ref where
  slot : Slot
  inum : Nat
  /-- The slot has a valid copy of the inode. -/
  loaded : Bool

/-- The same reference, with the inode loaded. -/
def Ref.load (r : Ref) : Ref := { r with loaded := true }

namespace Kernel

/-- Every inode without links is loaded in a slot that users or the references in `refs` keep. -/
def Anchors (k : Kernel) (L : Ledger) (refs : List Ref) : Prop :=
  ∀ i, k.fs.view.Live i → (k.fs.view.din i).nlink = 0 →
    ∃ s, (0 < L.users s ∨ s ∈ refs.map Ref.slot) ∧ (k.icache s).inum = i ∧ (k.icache s).valid = true

/-- **The cache within a call.** -/
structure Within (k : Kernel) (L : Ledger) (refs : List Ref) (room : Nat) : Prop where
  coherent : k.Coherent
  apart : k.fs.Apart
  low : ∀ b ∈ k.fs.view.free.take room, b < k.fs.view.sb.logStart
  ninodes : k.fs.readsb.ninodes.toNat = L.ninodes
  counts : ∀ s, (k.icache s).ref = L.users s + (refs.map Ref.slot).count s
  nums : ∀ s, 0 < L.users s → (k.icache s).inum = L.num s
  held : ∀ s, 0 < L.users s → k.fs.view.Live (L.num s)
  points : ∀ r ∈ refs, (k.icache r.slot).inum = r.inum ∧
    (r.loaded = true → (k.icache r.slot).valid = true)
  anchored : k.Anchors L refs

section Within

variable {k k' : Kernel} {L : Ledger} {refs refs' : List Ref} {room : Nat} {r : Ref} {i : Nat}

theorem Within.pos_iff (within : k.Within L refs room) (s : Slot) :
    0 < (k.icache s).ref ↔ 0 < L.users s ∨ s ∈ refs.map Ref.slot := by
  rw [within.counts, ← List.count_pos_iff]
  omega

theorem Within.used (within : k.Within L refs room) (member : r ∈ refs) :
    0 < (k.icache r.slot).ref :=
  (within.pos_iff _).mpr (.inr (List.mem_map_of_mem member))

theorem Within.locked (within : k.Within L refs room) (member : r ∈ refs)
    (loaded : r.loaded = true) : k.fs.Locked (k.icache r.slot) :=
  within.coherent.synced r.slot (within.used member) ((within.points r member).2 loaded)

theorem Within.din (within : k.Within L refs room) (member : r ∈ refs) (loaded : r.loaded = true) :
    k.fs.view.din r.inum = (k.icache r.slot).din := by
  rw [← (within.points r member).1]
  exact (within.locked member loaded).synced

theorem Within.live (within : k.Within L refs room) (member : r ∈ refs) (loaded : r.loaded = true) :
    k.fs.view.Live r.inum := by
  unfold View.Live
  rw [within.din member loaded]
  exact (within.locked member loaded).live

theorem Within.type (within : k.Within L refs room) (member : r ∈ refs) (loaded : r.loaded = true) :
    (k.icache r.slot).din.type = k.fs.view.tree.type r.inum := by
  show _ = (k.fs.view.din r.inum).type
  rw [within.din member loaded]

theorem Within.nlink (within : k.Within L refs room) (member : r ∈ refs)
    (loaded : r.loaded = true) : (k.icache r.slot).din.nlink = k.fs.view.tree.nlink r.inum := by
  rw [View.nlink_tree (within.live member loaded), within.din member loaded]

theorem Within.perm (within : k.Within L refs room) (perm : refs'.Perm refs) :
    k.Within L refs' room :=
  { within with
    counts := fun s => by rw [within.counts, (perm.map Ref.slot).count_eq]
    points := fun r member => within.points r (perm.mem_iff.mp member)
    anchored := fun i live unlinked => by
      obtain ⟨s, kept, rest⟩ := within.anchored i live unlinked
      exact ⟨s, kept.imp_right (perm.map Ref.slot).mem_iff.mpr, rest⟩ }

theorem Within.swap {r' : Ref} (within : k.Within L (r :: r' :: refs) room) :
    k.Within L (r' :: r :: refs) room := within.perm (.swap r r' refs)

theorem Within.fewer {room' : Nat} (within : k.Within L refs room) (fewer : room' ≤ room) :
    k.Within L refs room' :=
  { within with low := fun b member => within.low b (List.take_subset_take_left _ fewer member) }

/-! ### Changes of the cache alone -/

/-- The disk is as it was, and so are the slots in use. -/
structure Calm (k k' : Kernel) : Prop where
  fs : k'.fs = k.fs
  steady : k.Steady k'

theorem Within.anchors (within : k.Within L refs room) (calm : k.Calm k')
    (fewer : refs'.map Ref.slot ⊆ refs.map Ref.slot) (anchors : k.Anchors L refs') :
    k'.Anchors L refs' := by
  intro i live unlinked
  rw [calm.fs] at live unlinked
  obtain ⟨s, kept, number, valid⟩ := anchors i live unlinked
  obtain ⟨number', valid'⟩ :=
    calm.steady s ((within.pos_iff s).mpr (kept.imp_right fun member => fewer member))
  exact ⟨s, kept, number'.trans number, valid' valid⟩

theorem Anchors.mono (anchors : k.Anchors L refs) (more : refs.map Ref.slot ⊆ refs'.map Ref.slot) :
    k.Anchors L refs' := by
  intro i live unlinked
  obtain ⟨s, kept, rest⟩ := anchors i live unlinked
  exact ⟨s, kept.imp_right fun member => more member, rest⟩

/-- Whatever leaves the disk and the copies in use keeps what holds within a call. -/
theorem Within.calm (within : k.Within L refs room) (calm : k.Calm k') (coherent : k'.Coherent)
    (counts : ∀ s, (k'.icache s).ref = L.users s + (refs'.map Ref.slot).count s)
    (points : ∀ r ∈ refs', (k'.icache r.slot).inum = r.inum ∧
      (r.loaded = true → (k'.icache r.slot).valid = true))
    (anchored : k'.Anchors L refs') : k'.Within L refs' room where
  coherent := coherent
  apart := calm.fs ▸ within.apart
  low := calm.fs ▸ within.low
  ninodes := calm.fs ▸ within.ninodes
  counts := counts
  nums s user := by
    rw [(calm.steady s ((within.pos_iff s).mpr (.inl user))).1]
    exact within.nums s user
  held s user := calm.fs ▸ within.held s user
  points := points
  anchored := anchored

theorem Within.calm_points (within : k.Within L refs room) (calm : k.Calm k') (member : r ∈ refs) :
    (k'.icache r.slot).inum = r.inum ∧ (r.loaded = true → (k'.icache r.slot).valid = true) := by
  obtain ⟨number, valid⟩ := calm.steady r.slot (within.used member)
  obtain ⟨number', valid'⟩ := within.points r member
  exact ⟨number.trans number', fun loaded => valid (valid' loaded)⟩

theorem Within.got {s : Slot} (within : k.Within L refs room) (got : Got k k' i s) :
    k.Calm k' ∧ k'.Within L (⟨s, i, false⟩ :: refs) room := by
  have calm : k.Calm k' := ⟨got.fs, got.steady⟩
  refine ⟨calm, within.calm calm got.coherent ?_ ?_ ?_⟩
  · intro s'
    rw [List.map_cons, List.count_cons]
    by_cases same : s = s'
    · subst same
      rw [got.ref, within.counts, beq_self_eq_true, if_pos rfl]
      omega
    · rw [got.others s' (Ne.symm same), within.counts, if_neg (by simpa using same)]
      rfl
  · intro r member
    rcases List.mem_cons.mp member with rfl | member
    · exact ⟨got.inum, fun absurdity => by cases absurdity⟩
    · exact within.calm_points calm member
  · exact (within.anchors calm (List.Subset.refl _) within.anchored).mono
      (List.subset_cons_self _ _)

theorem Within.flagged {s : Slot} (within : k.Within L refs room) (flagged : Flagged k k' s) :
    k.Calm k' ∧ k'.Within L refs room := by
  have calm : k.Calm k' := ⟨flagged.fs, flagged.steady⟩
  exact ⟨calm, within.calm calm flagged.coherent (fun s' => by rw [flagged.ref, within.counts])
    (fun r member => within.calm_points calm member)
    (within.anchors calm (List.Subset.refl _) within.anchored)⟩

theorem Within.borrow {s : Slot} {users : Slot → Nat} (within : k.Within L refs room)
    (fewer : ∀ s', users s' + (if s' = s then 1 else 0) = L.users s') :
    k.Within { L with users } (⟨s, L.num s, false⟩ :: refs) room := by
  have user : 0 < L.users s := by
    have := fewer s
    rw [if_pos rfl] at this
    omega
  have less : ∀ s', 0 < users s' → 0 < L.users s' := by
    intro s' user'
    have := fewer s'
    omega
  refine ⟨within.coherent, within.apart, within.low, within.ninodes, ?_, ?_, ?_, ?_, ?_⟩
  · intro s'
    rw [within.counts, List.map_cons, List.count_cons, ← fewer s']
    by_cases same : s' = s
    · subst same
      rw [if_pos rfl, beq_self_eq_true, if_pos rfl]
      show _ = ((users s' : Nat) : Int) + _
      omega
    · rw [if_neg same, if_neg (by simpa using Ne.symm same)]
      rfl
  · exact fun s' user' => within.nums s' (less s' user')
  · exact fun s' user' => within.held s' (less s' user')
  · intro r member
    rcases List.mem_cons.mp member with rfl | member
    · exact ⟨within.nums s user, fun absurdity => by cases absurdity⟩
    · exact within.points r member
  · intro i live unlinked
    obtain ⟨s', kept, rest⟩ := within.anchored i live unlinked
    refine ⟨s', ?_, rest⟩
    by_cases same : s' = s
    · exact .inr (same ▸ List.mem_cons_self)
    · refine kept.imp (fun user' => ?_) fun member => List.mem_cons_of_mem _ member
      have := fewer s'
      rw [if_neg same] at this
      show 0 < users s'
      omega

theorem Within.update_num (within : k.Within L (r :: refs) room) (s : Slot) (user : 0 < L.users s) :
    update L.num r.slot r.inum s = L.num s := by
  by_cases here : s = r.slot
  · subst here
    rw [update_self]
    exact (within.points r List.mem_cons_self).1.symm.trans (within.nums r.slot user)
  · rw [update_of_ne here]

/-- A reference of the call becomes that of a user. -/
theorem Within.lend {users : Slot → Nat} (within : k.Within L (r :: refs) room)
    (live : k.fs.view.Live r.inum) (more : ∀ s, users s = L.users s + if s = r.slot then 1 else 0) :
    k.Within { L with users, num := update L.num r.slot r.inum } refs room := by
  have number := (within.points r List.mem_cons_self).1
  have either : ∀ s, 0 < users s → s = r.slot ∨ s ≠ r.slot ∧ 0 < L.users s := by
    intro s user
    have := more s
    by_cases same : s = r.slot
    · exact .inl same
    · rw [if_neg same] at this
      exact .inr ⟨same, by omega⟩
  refine ⟨within.coherent, within.apart, within.low, within.ninodes, ?_, ?_, ?_, ?_, ?_⟩
  · intro s
    rw [within.counts, List.map_cons, List.count_cons]
    show _ = ((users s : Nat) : Int) + _
    rw [more s]
    by_cases same : s = r.slot
    · subst same
      rw [if_pos rfl, beq_self_eq_true, if_pos rfl]
      omega
    · rw [if_neg same, if_neg (by simpa using Ne.symm same)]
      omega
  · intro s user
    show _ = update L.num r.slot r.inum s
    rcases either s user with rfl | ⟨other, user'⟩
    · rw [update_self]
      exact number
    · rw [update_of_ne other]
      exact within.nums s user'
  · intro s user
    show k.fs.view.Live (update L.num r.slot r.inum s)
    rcases either s user with rfl | ⟨other, user'⟩
    · rw [update_self]
      exact live
    · rw [update_of_ne other]
      exact within.held s user'
  · exact fun r' member => within.points r' (List.mem_cons_of_mem _ member)
  · intro i live' unlinked
    obtain ⟨s, kept, rest⟩ := within.anchored i live' unlinked
    refine ⟨s, ?_, rest⟩
    have := more s
    rcases kept with user | member
    · refine .inl ?_
      show 0 < users s
      omega
    · rcases List.mem_cons.mp member with same | member
      · refine .inl ?_
        rw [if_pos same] at this
        show 0 < users s
        omega
      · exact .inr member

/-! ### The functions of the cache -/

/-- Any halt but the panic of an inode without a type. -/
def Typed (halt : Halt) : Prop := halt ≠ .panic .ilockNoType

theorem iget_typed (k : Kernel) (dev : Nat) (i : Nat) :
    Meets (k.iget dev i) (fun _ => True) Typed := by
  unfold iget
  cases k.cached dev i with
  | some s => trivial
  | none =>
    cases k.emptySlot with
    | some s => trivial
    | none => exact fun absurdity => by cases absurdity

theorem Within.iget (within : k.Within L refs room) (i : Nat) :
    Meets (k.iget ROOTDEV i)
      (fun (s, k') => k.Calm k' ∧ k'.Within L (⟨s, i, false⟩ :: refs) room) Typed := by
  refine .intro (fun (s, k') ok => ?_) fun halt => (k.iget_typed ROOTDEV i).of_error
  exact within.got ((within.coherent.iget_meets i).of_ok ok)

theorem Within.idup {s : Slot} (within : k.Within L refs room) (user : 0 < L.users s) :
    k.Calm (k.idup s) ∧ (k.idup s).Within L (⟨s, L.num s, false⟩ :: refs) room := by
  have got := within.coherent.idup ((within.pos_iff s).mpr (.inl user))
  rw [within.nums s user] at got
  exact within.got got

/-- A locked inode is loaded. -/
theorem Within.ilock (within : k.Within L (r :: refs) room) (inside : r.inum < L.ninodes) :
    Meets (k.ilock r.slot) (fun k' => k.Calm k' ∧ k'.Within L (r.load :: refs) room)
      fun halt => halt = .panic .ilockNoType → ¬ k.fs.view.Live r.inum := by
  have number := (within.points r List.mem_cons_self).1
  refine .intro (fun k' ok => ?_) fun halt error absent live => ?_
  · have inside' : (k.icache r.slot).inum < k.fs.readsb.ninodes.toNat := by
      rw [number, within.ninodes]
      exact inside
    obtain ⟨flagged, valid, _⟩ := (within.coherent.ilock_meets inside').of_ok ok
    obtain ⟨calm, after⟩ := within.flagged flagged
    refine ⟨calm, { after with points := ?_ }⟩
    intro r' member
    rcases List.mem_cons.mp member with rfl | member
    · exact ⟨(after.points r List.mem_cons_self).1, fun _ => valid⟩
    · exact after.points r' (List.mem_cons_of_mem _ member)
  · subst absent
    have free : (k.fs.dinode (k.icache r.slot).inum).type = 0 := by
      unfold Kernel.ilock at error
      simp only at error
      split at error
      · cases error
      split at error
      · cases error
      split at error
      · cases error
      split at error
      · next free => exact free
      · cases error
    refine live ?_
    rw [number] at free
    rw [Fs.view_din_of_lt (s := k.fs)
      (show r.inum < k.fs.readsb.ninodes.toNat by rw [within.ninodes]; exact inside)]
    exact free

theorem Within.iunlock (within : k.Within L refs room) (s : Slot) :
    Meets (k.iunlock s) (fun k' => k.Calm k' ∧ k'.Within L refs room) Typed := by
  refine .intro (fun k' ok => ?_) fun halt error absent => ?_
  · exact within.flagged ((within.coherent.iunlock_meets s).of_ok ok)
  · subst absent
    unfold Kernel.iunlock at error
    simp only at error
    split at error <;> cases error

/-! ### Dropping a reference -/

theorem Within.counts_dropped (within : k.Within L (r :: refs) room) (dropped : Dropped k k' r.slot)
    (s : Slot) : (k'.icache s).ref = L.users s + (refs.map Ref.slot).count s := by
  have count := within.counts s
  rw [List.map_cons, List.count_cons] at count
  by_cases same : s = r.slot
  · subst same
    rw [beq_self_eq_true, if_pos rfl] at count
    rw [dropped.ref]
    omega
  · rw [if_neg (by simpa using Ne.symm same)] at count
    rw [dropped.others s same]
    exact count

theorem Within.dropped (within : k.Within L (r :: refs) room) (dropped : Dropped k k' r.slot)
    (kept : (k.icache r.slot).ref ≠ 1 ∨ (k.icache r.slot).valid = false ∨
      (k.icache r.slot).din.nlink ≠ 0)
    (anchors : k.Anchors L refs) : k.Calm k' ∧ k'.Within L refs room := by
  obtain ⟨fs, valid⟩ := dropped.kept kept
  have calm : k.Calm k' := by
    refine ⟨fs, fun s used => ?_⟩
    by_cases same : s = r.slot
    · subst same
      exact ⟨dropped.inum, fun valid' => valid.trans valid'⟩
    · rw [dropped.others s same]
      exact ⟨rfl, id⟩
  refine ⟨calm, within.calm calm dropped.coherent (within.counts_dropped dropped) ?_ ?_⟩
  · exact fun r' member => within.calm_points calm (List.mem_cons_of_mem _ member)
  · exact within.anchors calm (List.subset_cons_self _ _) anchors

theorem Within.shared (within : k.Within L (r :: refs) room) (anchors : k.Anchors L refs)
    (last : (k.icache r.slot).ref = 1) (valid : (k.icache r.slot).valid = true) :
    (k.icache r.slot).din.nlink ≠ 0 := by
  intro unlinked
  have used := within.used (r := r) List.mem_cons_self
  have locked := within.coherent.synced r.slot used valid
  have live : k.fs.view.Live (k.icache r.slot).inum := locked.viewOf_eq ▸ locked.holds.live
  obtain ⟨s, kept, number, _⟩ := anchors _ live (by rw [locked.synced]; exact unlinked)
  have used' : 0 < (k.icache s).ref :=
    (within.pos_iff s).mpr (kept.imp_right fun member => List.mem_cons_of_mem _ member)
  obtain rfl := within.coherent.unique s r.slot used' used number
  have count := within.counts r.slot
  rw [List.map_cons, List.count_cons, beq_self_eq_true, if_pos rfl] at count
  rcases kept with user | member
  · omega
  · have := List.count_pos_iff.mpr member
    omega

/-- An `iput` that is not the last one to an unlinked inode frees nothing. -/
theorem Within.iput_shared (within : k.Within L (r :: refs) room) (anchors : k.Anchors L refs)
    {bad : Halt → Prop} :
    Meets (k.iput r.slot) (fun k' => k.Calm k' ∧ k'.Within L refs room) bad := by
  have used := within.used (r := r) List.mem_cons_self
  have keeps : ¬ ((k.icache r.slot).ref = 1 ∧ (k.icache r.slot).valid = true ∧
      (k.icache r.slot).din.nlink = 0) := by
    rintro ⟨last, valid, unlinked⟩
    exact within.shared anchors last valid unlinked
  have done : k.iput r.slot = .ok (k.unref r.slot) := if_neg keeps
  have dropped := (within.coherent.iput_meets used).of_ok done
  have kept : (k.icache r.slot).ref ≠ 1 ∨ (k.icache r.slot).valid = false ∨
      (k.icache r.slot).din.nlink ≠ 0 := by
    by_cases last : (k.icache r.slot).ref = 1
    · by_cases valid : (k.icache r.slot).valid = true
      · exact .inr (.inr (within.shared anchors last valid))
      · exact .inr (.inl (by simpa using valid))
    · exact .inl last
  rw [done]
  exact within.dropped dropped kept anchors

/-- The last `iput` removes the inode from the disk. -/
theorem Within.removed (within : k.Within L (r :: refs) room) (dropped : Dropped k k' r.slot)
    (removed : k.fs.view.Removed k'.fs.view r.inum) (unused : L.users r.slot = 0)
    (alone : r.slot ∉ refs.map Ref.slot) : k'.Within L refs 0 := by
  have used := within.used (r := r) List.mem_cons_self
  have number := (within.points r List.mem_cons_self).1
  have other : ∀ s, 0 < L.users s ∨ s ∈ refs.map Ref.slot → s ≠ r.slot := by
    rintro s (user | member) rfl
    · omega
    · exact alone member
  have used' : ∀ s, 0 < L.users s ∨ s ∈ refs.map Ref.slot → 0 < (k.icache s).ref := fun s kept =>
    (within.pos_iff s).mpr (kept.imp_right fun member => List.mem_cons_of_mem _ member)
  refine ⟨dropped.coherent,
    within.apart.moves dropped.moves (by simp), by simp, ?_, ?_, ?_, ?_, ?_, ?_⟩
  · rw [dropped.moves.sb]
    exact within.ninodes
  · exact within.counts_dropped dropped
  · intro s user
    rw [dropped.others s (other s (.inl user))]
    exact within.nums s user
  · intro s user
    refine (removed.live _).mpr ⟨fun same => other s (.inl user) ?_, within.held s user⟩
    exact within.coherent.unique s r.slot (used' s (.inl user)) used
      (by rw [within.nums s user, same, number])
  · intro r' member
    rw [dropped.others _ (other _ (.inr (List.mem_map_of_mem member)))]
    exact within.points r' (List.mem_cons_of_mem _ member)
  · intro i live unlinked
    obtain ⟨differs, live'⟩ := (removed.live i).mp live
    rw [removed.others i differs] at unlinked
    obtain ⟨s, kept, number', valid⟩ := within.anchored i live' unlinked
    have here : s ≠ r.slot := by
      rintro rfl
      exact differs (number'.symm.trans number)
    refine ⟨s, kept.imp_right fun member => (List.mem_cons.mp member).resolve_left here, ?_⟩
    rw [dropped.others s here]
    exact ⟨number', valid⟩

/-- **`iput`** drops a reference, and frees the inode if it was the last one and there is no
link. -/
theorem Within.iput (within : k.Within L (r :: refs) room) :
    Meets (k.iput r.slot) (fun k' => k'.Within L refs 0 ∧ k.fs.view.tree.Freed k'.fs.view.tree)
      fun _ => True := by
  have used := within.used (r := r) List.mem_cons_self
  have number := (within.points r List.mem_cons_self).1
  by_cases anchors : k.Anchors L refs
  · have dropped :
        Meets (k.iput r.slot) (fun k' => k.Calm k' ∧ k'.Within L refs room) fun _ => True :=
      within.iput_shared anchors
    refine dropped.imp ?_
    rintro k' ⟨calm, within'⟩
    exact ⟨within'.fewer (Nat.zero_le _), calm.fs ▸ .refl _⟩
  · refine .intro (fun k' ok => ?_) fun _ _ => trivial
    have dropped := (within.coherent.iput_meets used).of_ok ok
    -- Only the slot of `r` anchors some inode without links.
    unfold Anchors at anchors
    simp only [not_forall] at anchors
    obtain ⟨i, live, unlinked, lost⟩ := anchors
    obtain ⟨s, kept, number', valid⟩ := within.anchored i live unlinked
    have only : ¬ (0 < L.users s ∨ s ∈ refs.map Ref.slot) :=
      fun kept' => lost ⟨s, kept', number', valid⟩
    obtain rfl : s = r.slot := by
      rcases kept with user | member
      · exact absurd (.inl user) only
      · exact (List.mem_cons.mp member).resolve_right fun member' => only (.inr member')
    obtain ⟨unused, alone⟩ := not_or.mp only
    have last : (k.icache r.slot).ref = 1 := by
      have count := within.counts r.slot
      rw [List.map_cons, List.count_cons, beq_self_eq_true, if_pos rfl,
        List.count_eq_zero.mpr alone] at count
      omega
    obtain rfl : r.inum = i := number.symm.trans number'
    have synced := (within.coherent.synced r.slot used valid).synced
    rw [number] at synced
    have removed := dropped.freed last valid (by rw [← synced]; exact unlinked)
    rw [number] at removed
    refine ⟨within.removed dropped removed (by omega) alone, {r.inum}, ?_, removed.tree⟩
    rintro i rfl
    rw [View.nlink_tree live]
    exact unlinked

end Within

end Kernel

end Xv6
