/-
**Lookups.**

`namex` walks the tree that the disk spells: it returns a reference to the inode that `Tree.walk`
finds, and drops every other reference it took. It frees nothing on its way, since whoever held an
inode without links before still does; and it meets an inode without a type only if an entry it
followed names one.
-/

import Xv6.Kernel.Call

namespace Xv6

open Lib

namespace Tree

/-- All numbers of inodes are in range: those of allocated inodes, and those in entries in use. -/
structure Ranged (t : Tree) (n : Nat) : Prop where
  small : n ≤ 2 ^ 16
  root : ROOTINO < n
  live : ∀ i, t.Live i → i < n
  leads : ∀ d i, t.Leads d i → i < n

/-- In a tree of the right shape all numbers are in range. -/
theorem Shape.ranged {t : Tree} {n : Nat} (shape : t.Shape n) : t.Ranged n :=
  ⟨shape.small, (shape.bounded _ shape.root.live).2, fun i live => (shape.bounded i live).2,
    fun _ _ leads => (shape.leads_cases leads).2.1⟩

theorem Ranged.setNlink {t : Tree} {n : Nat} (ranged : t.Ranged n) (i : Nat) (x : Int16) :
    (t.setNlink i x).Ranged n :=
  ⟨ranged.small, ranged.root, ranged.live, ranged.leads⟩

theorem Ranged.resolve_lt {t : Tree} {n cwd i : Nat} {path : List UInt8} (ranged : t.Ranged n)
    (current : cwd < n) (found : t.resolve cwd path = some i) : i < n := by
  obtain ⟨⟨j, name⟩, walked, rfl⟩ := Option.map_eq_some_iff.mp found
  refine walk_invariant (P := (· < n)) (fun _ _ _ leads => ranged.leads _ _ leads) ?_ walked
  split
  · exact ranged.root
  · exact current

/-- A lookup that starts at `i` can meet a free inode. -/
def Dangles (t : Tree) (i : Nat) : Prop := ∃ d, Relation.ReflTransGen t.Leads i d ∧ ¬ t.Live d

theorem Dangles.head {t : Tree} {d i : Nat} (leads : t.Leads d i) (dangles : t.Dangles i) :
    t.Dangles d := by
  obtain ⟨e, path, free⟩ := dangles
  exact ⟨e, .head leads path, free⟩

end Tree

namespace Kernel

section Lookup

variable {k k' : Kernel} {L : Ledger} {refs : List Ref} {room : Nat} {r : Ref} {cwd : Slot}
  {path name : List UInt8} {parent : Bool}

theorem Within.openDir (within : k.Within L refs room) (member : r ∈ refs)
    (loaded : r.loaded = true) (dir : k.fs.view.tree.Dir r.inum) : k.OpenDir r.slot where
  used := within.used member
  valid := (within.points r member).2 loaded
  dir := by
    rw [within.type member loaded]
    exact dir

theorem Within.ents (within : k.Within L refs room) (member : r ∈ refs)
    (dir : k.fs.view.tree.Dir r.inum) :
    k.fs.view.dirents (k.icache r.slot).inum = k.fs.view.tree.ents r.inum := by
  rw [(within.points r member).1]
  exact (View.ents_tree dir).symm

/-- Which entry was found, and the reference taken to its inode. -/
def Looked (k' : Kernel) (L : Ledger) (refs : List Ref) (room : Nat) :
    Option (Slot × Nat) → Option (Dirent × Nat) → Prop
  | none, none => k'.Within L refs room
  | some (s, off), some (de, p) =>
    off = DIRENTSIZE * p ∧ k'.Within L (⟨s, de.inum.toNat, false⟩ :: refs) room
  | _, _ => False

theorem Looked.cases {found : Option (Slot × Nat)} {entry : Option (Dirent × Nat)}
    (looked : k'.Looked L refs room found entry) :
    found = none ∧ entry = none ∧ k'.Within L refs room ∨
      ∃ s de p, found = some (s, DIRENTSIZE * p) ∧ entry = some (de, p) ∧
        k'.Within L (⟨s, de.inum.toNat, false⟩ :: refs) room := by
  match found, entry, looked with
  | none, none, within => exact .inl ⟨rfl, rfl, within⟩
  | some (s, _), some (de, p), ⟨rfl, within⟩ => exact .inr ⟨s, de, p, rfl, rfl, within⟩

/-- `dirlookup` looks the name up in the entries of the tree. -/
theorem Within.dirlookup (within : k.Within L refs room) (member : r ∈ refs)
    (loaded : r.loaded = true) (dir : k.fs.view.tree.Dir r.inum) (name : List UInt8) :
    Meets (k.dirlookup r.slot name) (fun (found, k') => k.Calm k' ∧
      k'.Looked L refs room found (findIn name (k.fs.view.tree.ents r.inum))) Typed := by
  have opened := within.openDir member loaded dir
  have ents := within.ents member dir
  unfold Kernel.dirlookup
  rw [if_neg (not_not.mpr opened.dir)]
  refine ((within.coherent.scan_meets opened 0).mono (fun _ good => good) ?_).bind ?_
  · rintro _ ⟨rfl, _⟩ absurdity
    cases absurdity
  · rintro ⟨found, m⟩ ⟨rfl, search, _⟩
    have search' : found = (findIn name (m.fs.view.tree.ents r.inum)).map
        (fun x => (x.1, DIRENTSIZE * x.2)) := by
      rw [← ents]
      exact search
    cases entry : findIn name (m.fs.view.tree.ents r.inum) with
    | none =>
      rw [entry] at search'
      obtain rfl : found = none := search'
      exact ⟨⟨rfl, .refl _⟩, within⟩
    | some x =>
      obtain ⟨de, p⟩ := x
      rw [entry] at search'
      obtain rfl : found = some (de, DIRENTSIZE * p) := search'
      simp only
      rw [within.coherent.dev r.slot opened.used]
      refine (within.iget _).bind ?_
      rintro ⟨s, k'⟩ ⟨calm, within'⟩
      exact ⟨calm, rfl, within'⟩

theorem Within.iunlockput_shared (within : k.Within L (r :: refs) room)
    (anchors : k.Anchors L refs) :
    Meets (k.iunlockput r.slot) (fun k' => k'.fs = k.fs ∧ k'.Within L refs room ∧
      ∀ refs', refs'.map Ref.slot ⊆ refs.map Ref.slot → k.Anchors L refs' →
      k'.Anchors L refs') Typed := by
  refine (within.iunlock r.slot).bind ?_
  rintro m ⟨calm, within'⟩
  have more : refs.map Ref.slot ⊆ (r :: refs).map Ref.slot := List.subset_cons_self _ _
  refine (within'.iput_shared (within.anchors calm more anchors)).mono ?_ fun _ typed => typed
  rintro k' ⟨calm', within''⟩
  refine ⟨calm'.fs.trans calm.fs, within'', fun refs' fewer anchors' => ?_⟩
  exact within'.anchors calm' (List.Subset.trans fewer more)
    (within.anchors calm (List.Subset.trans fewer more) anchors')

theorem Within.unload (within : k.Within L (r :: refs) room) :
    k.Within L (⟨r.slot, r.inum, false⟩ :: refs) room :=
  { within with
    points := by
      intro r' member
      rcases List.mem_cons.mp member with rfl | member
      · exact ⟨(within.points r List.mem_cons_self).1, fun absurdity => by cases absurdity⟩
      · exact within.points r' (List.mem_cons_of_mem _ member) }

/-- The reference that a lookup returns. -/
def Walked (k' : Kernel) (L : Ledger) (refs : List Ref) (room : Nat) :
    Option (Slot × List UInt8) → Option (Nat × List UInt8) → Prop
  | none, none => k'.Within L refs room
  | some (s, name), some (i, name') => name = name' ∧ k'.Within L (⟨s, i, false⟩ :: refs) room
  | _, _ => False

theorem Walked.cases {found : Option (Slot × List UInt8)} {goal : Option (Nat × List UInt8)}
    (walked : k'.Walked L refs room found goal) :
    found = none ∧ goal = none ∧ k'.Within L refs room ∨
      ∃ s i name, found = some (s, name) ∧ goal = some (i, name) ∧
      k'.Within L (⟨s, i, false⟩ :: refs) room := by
  match found, goal, walked with
  | none, none, within => exact .inl ⟨rfl, rfl, within⟩
  | some (s, name), some (i, _), ⟨rfl, within⟩ => exact .inr ⟨s, i, name, rfl, rfl, within⟩

/-- The loop of `namex` follows `Tree.walk`. -/
theorem Within.namexLoop (ranged : k.fs.view.tree.Ranged L.ninodes)
    (within : k.Within L (r :: refs) room) (anchors : k.Anchors L refs)
    (inside : r.inum < L.ninodes) (path : List UInt8) (parent : Bool) (name : List UInt8) :
    Meets (k.namexLoop r.slot parent path name)
      (fun (found, k') => k'.fs = k.fs ∧
        k'.Walked L refs room found (k.fs.view.tree.walk r.inum parent path name))
      fun halt => halt = .panic .ilockNoType → k.fs.view.tree.Dangles r.inum := by
  induction path using (measure List.length).wf.induction generalizing k r name with
  | _ path ih =>
    rw [Kernel.namexLoop]
    split
    · next last =>
      rw [Tree.walk_last _ last]
      split
      · refine (within.iput_shared anchors).bind ?_
        rintro k' ⟨calm, within'⟩
        exact ⟨calm.fs, within'⟩
      · exact ⟨rfl, rfl, within.unload⟩
    · next elem rest next' =>
      rw [Tree.walk_next _ next']
      have typed : ∀ halt, Typed halt → halt = .panic .ilockNoType →
        k.fs.view.tree.Dangles r.inum :=
        fun halt typed absent => absurd absent typed
      refine ((within.ilock inside).mono (fun _ good => good)
        fun halt free absent => ⟨r.inum, .refl, free absent⟩).bind ?_
      rintro k₁ ⟨calm₁, within₁⟩
      have anchors₁ := within.anchors calm₁ (List.subset_cons_self _ _) anchors
      have type := within₁.type (r := r.load) List.mem_cons_self rfl
      have isDir : (k₁.icache r.slot).din.type = T_DIR ↔ k.fs.view.tree.Dir r.inum := by
        rw [show (k₁.icache r.slot).din.type = _ from type, calm₁.fs]
        exact Iff.rfl
      by_cases dir : k.fs.view.tree.Dir r.inum
      · rw [if_neg (not_not.mpr (isDir.mpr dir)), if_neg (not_not.mpr dir)]
        split
        · refine ((within₁.iunlock r.slot).mono (fun _ good => good) typed).bind ?_
          rintro k' ⟨calm, within'⟩
          exact ⟨calm.fs.trans calm₁.fs, rfl, within'.unload⟩
        · have dir₁ : k₁.fs.view.tree.Dir r.load.inum := by
            rw [calm₁.fs]
            exact dir
          refine ((within₁.dirlookup List.mem_cons_self rfl dir₁ elem).mono (fun _ good => good)
            typed).bind ?_
          rintro ⟨found, k₂⟩ ⟨calm₂, looked⟩
          have anchors₂ := within₁.anchors calm₂ (List.subset_cons_self _ _) anchors₁
          have fs₂ := calm₂.fs.trans calm₁.fs
          rw [calm₁.fs] at looked
          rcases looked.cases with ⟨rfl, entry, within₂⟩ | ⟨s, de, p, rfl, entry, within₂⟩
          · rw [show findIn elem (k.fs.view.tree.ents r.inum) = none from entry]
            refine ((within₂.iunlockput_shared anchors₂).mono (fun _ good => good) typed).bind ?_
            rintro k' ⟨fs, within', _⟩
            exact ⟨fs.trans fs₂, within'⟩
          · rw [show findIn elem (k.fs.view.tree.ents r.inum) = some (de, p) from entry]
            have leads := Tree.leads_of_found entry
            refine ((within₂.swap.iunlockput_shared
              (anchors₂.mono (List.subset_cons_self _ _))).mono (fun _ good => good) typed).bind ?_
            rintro k₃ ⟨fs₃, within₃, carry⟩
            have fs := fs₃.trans fs₂
            refine (ih rest (length_skipelem next') (fs ▸ ranged) within₃
              (carry refs (List.subset_cons_self _ _) anchors₂)
              (ranged.leads _ _ leads) _).mono ?_ ?_
            · rintro ⟨found', k'⟩ ⟨fs', walked⟩
              rw [fs] at walked
              exact ⟨fs'.trans fs, walked⟩
            · intro halt dangles absent
              have further := dangles absent
              rw [fs] at further
              exact further.head leads
      · rw [if_pos (isDir.not.mpr dir), if_pos dir]
        refine ((within₁.iunlockput_shared anchors₁).mono (fun _ good => good) typed).bind ?_
        rintro k' ⟨fs, within', _⟩
        exact ⟨fs.trans calm₁.fs, within'⟩

/-- **`namex`** returns a reference to what `Tree.walk` finds, and frees nothing. -/
theorem Within.namex (within : k.Within L refs room) (ranged : k.fs.view.tree.Ranged L.ninodes)
    (user : 0 < L.users cwd) (path : List UInt8) (parent : Bool) :
    Meets (k.namex cwd path parent)
      (fun (found, k') => k'.fs = k.fs ∧ k'.Walked L refs room found
        (k.fs.view.tree.walk (if path.head? = some 47 then ROOTINO else L.num cwd) parent path []))
      fun halt => halt = .panic .ilockNoType →
        k.fs.view.tree.Dangles (if path.head? = some 47 then ROOTINO else L.num cwd) := by
  unfold Kernel.namex
  split
  · refine ((within.iget ROOTINO).mono (fun _ good => good) fun halt typed absent =>
      absurd absent typed).bind ?_
    rintro ⟨s, m⟩ ⟨calm, within'⟩
    have inside := ranged.root
    have anchors := within.anchors calm (List.Subset.refl _) within.anchored
    have walks := within'.namexLoop (calm.fs ▸ ranged) anchors inside path parent []
    rw [calm.fs] at walks
    exact walks
  · obtain ⟨calm, within'⟩ := within.idup user
    have inside := ranged.live _ (show k.fs.view.tree.Live (L.num cwd) from within.held cwd user)
    have anchors := within.anchors calm (List.Subset.refl _) within.anchored
    exact within'.namexLoop (calm.fs ▸ ranged) anchors inside path parent []

theorem Within.namei (within : k.Within L refs room) (ranged : k.fs.view.tree.Ranged L.ninodes)
    (user : 0 < L.users cwd) (path : List UInt8) :
    Meets (k.namei cwd path) (fun (found, k') => k'.fs = k.fs ∧
      (found = none ∧ k.fs.view.tree.resolve (L.num cwd) path = none ∧ k'.Within L refs room ∨
      ∃ s i, found = some s ∧ k.fs.view.tree.resolve (L.num cwd) path = some i ∧ i < L.ninodes ∧
        k'.Within L (⟨s, i, false⟩ :: refs) room)) fun _ => True := by
  unfold Kernel.namei
  refine (within.namex ranged user path false).weaken.bind ?_
  rintro ⟨found, k'⟩ ⟨fs, walked⟩
  refine ⟨fs, ?_⟩
  rcases walked.cases with ⟨rfl, goal, within'⟩ | ⟨s, i, name, rfl, goal, within'⟩
  · exact .inl ⟨rfl, congrArg _ goal, within'⟩
  · have target : k.fs.view.tree.resolve (L.num cwd) path = some i :=
      congrArg (Option.map Prod.fst) goal
    exact .inr ⟨s, i, rfl, target, ranged.resolve_lt (ranged.live _ (within.held cwd user)) target,
      within'⟩

theorem Within.nameiparent (within : k.Within L refs room)
    (ranged : k.fs.view.tree.Ranged L.ninodes) (user : 0 < L.users cwd) (path : List UInt8) :
    Meets (k.nameiparent cwd path) (fun (found, k') => k'.fs = k.fs ∧
      k'.Walked L refs room found (k.fs.view.tree.resolveParent (L.num cwd) path)) fun _ => True :=
  (within.namex ranged user path true).weaken

end Lookup

end Kernel

end Xv6
