/-
**The functions that edit the name space.**

Within a call, `iupdate` writes a count, `dirlink` an entry, a `writei` of zeros clears one, and
`ialloc` with `ilock` gives a new inode: the tree on the disk is edited, and all else that holds
within the call stays. An entry costs the blocks by which its directory grows (`entryCost`).
-/

import Xv6.Kernel.Walk

namespace Xv6

open Lib

namespace Kernel

section Stored

variable {k k' : Kernel} {L : Ledger} {refs : List Ref} {room m : Nat} {r : Ref}

theorem Within.stored (within : k.Within L refs room) (member : r ∈ refs) (loaded : r.loaded = true)
    (stored : Stored k k' r.slot) (live : k'.fs.view.Live r.inum) (moves : k.fs.Moves k'.fs m)
    (free : k'.fs.view.free = k.fs.view.free.drop m) (enough : m ≤ room) :
    k'.Within L refs (room - m) := by
  have sb : k'.fs.view.sb = k.fs.view.sb := moves.sb
  have number := (within.points r member).1
  have otherDins : ∀ j, j ≠ r.inum → k'.fs.view.din j = k.fs.view.din j := number ▸ stored.otherDins
  have points : ∀ r' ∈ refs, (k'.icache r'.slot).inum = r'.inum ∧
      (r'.loaded = true → (k'.icache r'.slot).valid = true) := by
    intro r' member'
    obtain ⟨number', valid'⟩ := stored.steady r'.slot (within.used member')
    obtain ⟨before, valid⟩ := within.points r' member'
    exact ⟨number'.trans before, fun loaded' => valid' (valid loaded')⟩
  refine ⟨stored.coherent, within.apart.moves moves ?_, ?_, ?_, ?_, ?_, ?_, points, ?_⟩
  · intro b drawn
    exact within.low b (List.take_subset_take_left _ enough drawn)
  · intro b drawn
    rw [free, ← List.drop_take] at drawn
    rw [sb]
    exact within.low b (List.mem_of_mem_drop drawn)
  · rw [moves.sb]
    exact within.ninodes
  · intro s
    rw [stored.ref, within.counts]
  · intro s user
    rw [(stored.steady s ((within.pos_iff s).mpr (.inl user))).1]
    exact within.nums s user
  · intro s user
    by_cases same : L.num s = r.inum
    · rw [same]
      exact live
    · unfold View.Live
      rw [otherDins _ same]
      exact within.held s user
  · intro i live' unlinked
    by_cases same : i = r.inum
    · subst same
      obtain ⟨number', valid'⟩ := points r member
      exact ⟨r.slot, .inr (List.mem_map_of_mem member), number', valid' loaded⟩
    · unfold View.Live at live'
      rw [otherDins i same] at live' unlinked
      obtain ⟨s, kept, number', valid⟩ := within.anchored i live' unlinked
      obtain ⟨number'', valid'⟩ := stored.steady s ((within.pos_iff s).mpr kept)
      exact ⟨s, kept, number''.trans number', valid' valid⟩

/-- `iupdate` with another count edits the count in the tree. -/
theorem Within.iupdate (within : k.Within L refs room) (member : r ∈ refs)
    (loaded : r.loaded = true) {din : Dinode} (fields : din = { (k.icache r.slot).din with
      nlink := din.nlink, major := din.major, minor := din.minor }) :
    Meets (k.iupdate r.slot din) (fun k' => k'.Within L refs room ∧
      k'.fs.view.tree = k.fs.view.tree.setNlink r.inum din.nlink) fun _ => True := by
  have number := (within.points r member).1
  have live := within.live member loaded
  have before := within.din member loaded
  refine .intro (fun k' ok => ?_) fun _ _ => trivial
  obtain ⟨stored, view, _, moves⟩ := (within.coherent.iupdate_meets (within.used member)
    ((within.points r member).2 loaded) fields).of_ok ok
  rw [number] at view
  have type : din.type = (k.fs.view.din r.inum).type := by rw [before, fields]
  refine ⟨?_, ?_⟩
  · refine within.stored member loaded stored ?_ moves ?_ (Nat.zero_le _)
    · unfold View.Live
      rw [view, View.din_setDin_self, type]
      exact live
    · rw [view]
      rfl
  · rw [view]
    exact View.tree_setNlink live type (by rw [before, fields]) (by rw [before, fields])

end Stored

/-! ### Entries -/

/-- The blocks that a new entry may take in a directory of `l` entries. -/
def entryCost (l : Nat) : Nat := if l = 0 then 1 else if l < 32 then 0 else 2

/-- An entry costs at most a block and an indirect block. -/
theorem entryCost_le (l : Nat) : entryCost l ≤ 2 := by
  unfold entryCost
  split_ifs <;> omega

theorem growth_entry_le {size p : Nat} (aligned : size % DIRENTSIZE = 0)
    (inside : DIRENTSIZE * p ≤ size) :
    growth (blocksOf size) (max (blocksOf size) (blocksOf (DIRENTSIZE * p + DIRENTSIZE))) ≤
      entryCost (size / DIRENTSIZE) := by
  have more : blocksOf (DIRENTSIZE * p + DIRENTSIZE) ≤ blocksOf (size + DIRENTSIZE) :=
    blocksOf_mono (by omega)
  have step : blocksOf (size + DIRENTSIZE) ≤ blocksOf size + 1 ∧
      (0 < size → size < 512 → blocksOf size = 1 ∧ blocksOf (size + DIRENTSIZE) = 1) ∧
      (size = 0 → blocksOf size = 0 ∧ blocksOf (size + DIRENTSIZE) = 1) := by
    unfold blocksOf
    rw [DIRENTSIZE_eq, BSIZE_eq] at *
    omega
  unfold growth entryCost
  rw [DIRENTSIZE_eq, NDIRECT_eq] at *
  split_ifs <;> omega

section Entries

variable {k k' : Kernel} {L : Ledger} {refs : List Ref} {room : Nat} {r : Ref} {name : List UInt8}

theorem Within.wrote {p : Nat} {de : Dirent} {taken sectors : List Nat} (cost : Nat)
    (within : k.Within L refs room)
    (member : r ∈ refs) (loaded : r.loaded = true) (dir : k.fs.view.tree.Dir r.inum)
    (length : de.name.length = DIRSIZ)
    (aligned : (k.icache r.slot).din.size.toNat % DIRENTSIZE = 0 ∨
    p < (k.fs.view.tree.ents r.inum).length)
    (fits : Fs.Fits (k.icache r.slot) (DIRENTSIZE * p) DIRENTSIZE) (stored : Stored k k' r.slot)
    (written : Fs.Written k.fs k'.fs (k.icache r.slot) (k'.icache r.slot)
    (DIRENTSIZE * p) de.encode taken
      sectors)
    (bound : growth (Fs.blocks (k.icache r.slot))
      (Fs.blocksAfter (k.icache r.slot) (DIRENTSIZE * p) DIRENTSIZE) ≤ cost)
    (enough : cost ≤ room) :
    k'.Within L refs (room - cost) ∧
      k'.fs.view.tree =
      k.fs.view.tree.setEnts r.inum (splice (k.fs.view.tree.ents r.inum) p [de]) := by
  have number := (within.points r member).1
  have locked := within.locked member loaded
  have before := within.din member loaded
  have length' : de.encode.length = DIRENTSIZE := Dirent.length_encode length
  have effect := written.effect
  rw [number] at effect
  have moves := written.moves locked fits.2.1 (by rw [length']; exact fits.2.2)
  have count := written.count locked
  rw [length'] at moves count
  constructor
  · refine (within.stored member loaded stored
      ((effect.live _).mpr (within.live member loaded)) moves ?_
      (bound.trans enough)).fewer (by omega)
    rw [effect.free, ← count, List.drop_left]
  · refine View.tree_setEnts length dir ?_ ?_ effect
    · rw [before, ← View.ents_tree dir]
      exact aligned
    · rw [before]
      exact fits.2.1

/-- What `dirlink` did. -/
inductive Linked (k k' : Kernel) (L : Ledger) (refs : List Ref) (room d : Nat)
    (name : List UInt8) (i : Nat) :
    Int → Prop
  | there (found : (findIn name (k.fs.view.tree.ents d)).isSome = true) (same : k'.fs = k.fs)
      (within : k'.Within L refs room) : Linked k k' L refs room d name i (-1)
  | placed (absent : findIn name (k.fs.view.tree.ents d) = none)
      (tree : k'.fs.view.tree = k.fs.view.tree.place d name i)
      (within : k'.Within L refs (room - entryCost (k.fs.view.tree.ents d).length)) :
      Linked k k' L refs room d name i 0

/-- `dirlink` adds an entry, or finds the name there. -/
theorem Within.dirlink (within : k.Within L refs room) (member : r ∈ refs)
    (loaded : r.loaded = true) (dir : k.fs.view.tree.Dir r.inum)
    (enough : entryCost (k.fs.view.tree.ents r.inum).length ≤ room) (name : List UInt8) (i : Nat) :
    Meets (k.dirlink r.slot name i) (fun (res, k') => Linked k k' L refs room r.inum name i res)
      fun _ => True := by
  have opened := within.openDir member loaded dir
  have ents := within.ents member dir
  have before := within.din member loaded
  refine .intro (fun (res, k') ok => ?_) fun _ _ => trivial
  have outcome := (within.coherent.dirlink_meets opened name i).of_ok ok
  rcases outcome
    with ⟨rfl, same, found⟩ | ⟨rfl, stored, absent, whole, fits, taken, sectors, written⟩
  · have calm : k.Calm k' := ⟨same.fs, same.steady⟩
    refine .there (by rw [← ents]; exact found) same.fs (within.calm calm same.coherent ?_ ?_ ?_)
    · intro s
      rw [same.ref, within.counts]
    · exact fun r' member' => within.calm_points calm member'
    · exact within.anchors calm (List.Subset.refl _) within.anchored
  · have empty :
        k.fs.view.emptyEntry (k.icache r.slot).inum = emptyIn (k.fs.view.tree.ents r.inum) := by
      rw [← ents]
      rfl
    have count :
        (k.fs.view.tree.ents r.inum).length = (k.icache r.slot).din.size.toNat / DIRENTSIZE := by
      rw [← ents, View.length_dirents, (within.points r member).1, before]
    rw [empty] at fits written
    have bound : growth (Fs.blocks (k.icache r.slot)) (Fs.blocksAfter (k.icache r.slot)
        (DIRENTSIZE * emptyIn (k.fs.view.tree.ents r.inum)) DIRENTSIZE) ≤
        entryCost (k.fs.view.tree.ents r.inum).length := by
      rw [count]
      exact growth_entry_le whole fits.2.1
    obtain ⟨within', tree⟩ :=
      within.wrote _ member loaded dir (length_strncpy _ _) (.inl whole) fits stored
      written bound enough
    exact .placed (by rw [← ents]; exact absent) tree within'

/-- A `writei` of zeros over an entry clears it. -/
theorem Within.clearEntry {p : Nat} (within : k.Within L refs room) (member : r ∈ refs)
    (loaded : r.loaded = true) (dir : k.fs.view.tree.Dir r.inum)
    (inside : p < (k.fs.view.tree.ents r.inum).length) :
    Meets (k.writei r.slot (List.replicate DIRENTSIZE 0) (DIRENTSIZE * p))
      (fun (res, k') => res = DIRENTSIZE ∧ k'.Within L refs room ∧
        k'.fs.view.tree = k.fs.view.tree.clear r.inum p) fun _ => True := by
  have opened := within.openDir member loaded dir
  have before := within.din member loaded
  have small := (within.locked member loaded).small
  have zeros : List.replicate DIRENTSIZE 0 = Dirent.free.encode := rfl
  have inside' : DIRENTSIZE * p + DIRENTSIZE ≤ (k.icache r.slot).din.size.toNat := by
    have count := inside
    rw [← within.ents member dir, View.length_dirents, (within.points r member).1, before] at count
    rw [DIRENTSIZE_eq] at *
    omega
  have fits : Fs.Fits (k.icache r.slot) (DIRENTSIZE * p) DIRENTSIZE :=
    ⟨opened.file, by omega, inside'.trans small⟩
  refine .intro (fun (res, k') ok => ?_) fun _ _ => trivial
  rw [zeros] at ok
  obtain ⟨stored, _, wrote⟩ := (within.coherent.writei_meets opened.used opened.valid _ _ ⟨by
    rw [MAXFILE_eq, BSIZE_eq] at small
    omega, by decide⟩).of_ok ok
  obtain ⟨rfl, taken, sectors, written⟩ := wrote fits
  refine ⟨rfl, ?_⟩
  refine within.wrote 0 member loaded dir List.length_replicate (.inr inside) fits stored written ?_
    (Nat.zero_le _)
  have same :
      Fs.blocksAfter (k.icache r.slot) (DIRENTSIZE * p) DIRENTSIZE = Fs.blocks (k.icache r.slot) :=
    max_eq_left (blocksOf_mono inside')
  rw [same, growth_self]

end Entries

section Alloc

variable {k : Kernel} {L : Ledger} {refs : List Ref} {room : Nat}

/-- **`ialloc` and `ilock`** give a loaded inode without links in place of a free one. -/
theorem Within.ialloc (within : k.Within L refs room) {type : Int16} (allocated : type ≠ 0) :
    Meets (do
        let (ip, k) ← k.ialloc ROOTDEV type
        let k ← k.ilock ip
        return (ip, k))
      (fun (s, k') => ∃ i, (0 < i ∧ i < L.ninodes) ∧ ¬ k.fs.view.tree.Live i ∧
        k'.Within L (⟨s, i, true⟩ :: refs) room ∧
        k'.fs.view.tree = (k.fs.view.tree.add i type []).setNlink i 0) fun _ => True := by
  refine ((within.coherent.ialloc_meets type).weaken).bind ?_
  rintro ⟨s, k₁⟩ ⟨i, m, low, inside, dead, got, icache, coherent, view, moves⟩
  have sb : m.fs.readsb = k.fs.readsb := moves.sb
  have inside₁ : (k₁.icache s).inum < k₁.fs.readsb.ninodes.toNat := by
    rw [got.inum, got.fs, sb]
    exact inside
  refine ((got.coherent.ilock_meets inside₁).weaken).bind ?_
  rintro k' ⟨flagged, valid, _⟩
  have fs : k'.fs.view = k.fs.view.setDin i { Dinode.zero with type } := by
    rw [flagged.fs, got.fs, view]
  have dins : ∀ j, j ≠ i → k'.fs.view.din j = k.fs.view.din j := by
    intro j other
    rw [fs, View.din_setDin_of_ne other]
  have new : k'.fs.view.Live i := by
    unfold View.Live
    rw [fs, View.din_setDin_self]
    exact allocated
  have steady : ∀ s', 0 < (k.icache s').ref → (k'.icache s').inum = (k.icache s').inum ∧
      ((k.icache s').valid = true → (k'.icache s').valid = true) := by
    intro s' used
    rw [← icache] at used ⊢
    obtain ⟨number, valid'⟩ := got.steady s' used
    have used' : 0 < (k₁.icache s').ref := by
      by_cases same : s' = s
      · subst same
        rw [got.ref]
        omega
      · rw [got.others s' same]
        exact used
    obtain ⟨number', valid''⟩ := flagged.steady s' used'
    exact ⟨number'.trans number, fun before => valid'' (valid' before)⟩
  have used₁ : 0 < (k₁.icache s).ref := by
    have := coherent.nonneg s
    rw [got.ref]
    omega
  refine ⟨i, ⟨low, by rw [← within.ninodes]; exact inside⟩, dead,
    ⟨flagged.coherent, ?_, ?_, ?_, ?_, ?_, ?_, ?_, ?_⟩, ?_⟩
  · have apart : m.fs.Apart := within.apart.moves moves (by simp)
    rw [flagged.fs, got.fs]
    exact apart
  · rw [fs]
    exact within.low
  · rw [flagged.fs, got.fs, sb]
    exact within.ninodes
  · intro s'
    rw [flagged.ref, List.map_cons, List.count_cons]
    have count := within.counts s'
    rw [← icache] at count
    by_cases same : s = s'
    · subst same
      rw [got.ref, count, beq_self_eq_true, if_pos rfl]
      omega
    · rw [got.others s' (Ne.symm same), count, if_neg (by simpa using same)]
      rfl
  · intro s' user
    rw [(steady s' ((within.pos_iff s').mpr (.inl user))).1]
    exact within.nums s' user
  · intro s' user
    by_cases same : L.num s' = i
    · rw [same]
      exact new
    · unfold View.Live
      rw [dins _ same]
      exact within.held s' user
  · intro r member
    rcases List.mem_cons.mp member with rfl | member
    · exact ⟨(flagged.steady s used₁).1.trans got.inum, fun _ => valid⟩
    · obtain ⟨number, valid'⟩ := steady r.slot (within.used member)
      obtain ⟨before, loaded⟩ := within.points r member
      exact ⟨number.trans before, fun flag => valid' (loaded flag)⟩
  · intro j live unlinked
    by_cases same : j = i
    · subst same
      exact ⟨s, .inr List.mem_cons_self, (flagged.steady s used₁).1.trans got.inum, valid⟩
    · unfold View.Live at live
      rw [dins j same] at live unlinked
      obtain ⟨s', kept, number, valid'⟩ := within.anchored j live unlinked
      obtain ⟨number', valid''⟩ := steady s' ((within.pos_iff s').mpr kept)
      exact ⟨s', kept.imp_right fun member => List.mem_cons_of_mem _ member, number'.trans number,
        valid'' valid'⟩
  · rw [fs]
    exact View.tree_alloc allocated rfl rfl

end Alloc

/-! ### Transactions -/

section Transactions

variable {k k' : Kernel} {L : Ledger} {refs : List Ref} {room : Nat}

theorem Within.agrees (within : k.Within L refs room) (coherent : k'.Coherent) (apart : k'.fs.Apart)
    (agrees : k.fs.view.Agrees k'.fs.view) (icache : k'.icache = k.icache) :
    k'.Within L refs room := by
  refine ⟨coherent, apart, ?_, ?_, ?_, ?_, ?_, ?_, ?_⟩
  · rw [agrees.free, agrees.sb]
    exact within.low
  · rw [show k'.fs.readsb = k.fs.readsb from agrees.sb]
    exact within.ninodes
  · rw [icache]
    exact within.counts
  · rw [icache]
    exact within.nums
  · exact fun s user => (agrees.live _).mpr (within.held s user)
  · rw [icache]
    exact within.points
  · intro i live unlinked
    rw [agrees.din] at unlinked
    rw [icache]
    exact within.anchored i ((agrees.live i).mp live) unlinked

theorem Within.beginOp (within : k.Within L refs room) :
    Meets k.beginOp (fun k' => k'.Within L refs room ∧ k'.fs.view = k.fs.view) fun _ => True := by
  refine (within.coherent.beginOp_meets within.apart).imp ?_
  rintro k' ⟨coherent, apart, view, icache⟩
  exact ⟨within.agrees coherent apart (view ▸ .refl _) icache, view⟩

theorem Within.endOp_agrees (within : k.Within L refs room) :
    Meets k.endOp (fun k' => k'.Within L refs room ∧ k.fs.view.Agrees k'.fs.view) fun _ =>
      True := by
  refine (within.coherent.endOp_meets within.apart).imp ?_
  rintro k' ⟨coherent, apart, agrees, icache⟩
  exact ⟨within.agrees coherent apart agrees icache, agrees⟩

theorem Within.endOp (within : k.Within L refs room) :
    Meets k.endOp (fun k' => k'.Within L refs room ∧ k'.fs.view.tree = k.fs.view.tree) fun _ =>
      True := by
  refine within.endOp_agrees.imp ?_
  rintro k' ⟨within', agrees⟩
  exact ⟨within', agrees.tree within.apart.inside within.coherent.wellFormed⟩

end Transactions

end Kernel

end Xv6
