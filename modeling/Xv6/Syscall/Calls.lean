/-
**The calls on names do what they are for.**

Each call of `sysfile.c` leaves the tree that its purpose names, but for inodes without links that
it freed on its way. A call that adds names draws at most three blocks.
-/

import Xv6.Kernel.Edit
import Xv6.Names.Machine

namespace Xv6

open Lib Function

namespace Kernel

variable {k k' : Kernel} {L : Ledger} {refs : List Ref} {room : Nat} {r : Ref} {t : Tree}
    {cwd : Slot}

/-- The disk spells the tree `t`, but for inodes without links that were freed. -/
structure Ends (k : Kernel) (L : Ledger) (refs : List Ref) (t : Tree) : Prop where
  within : k.Within L refs 0
  freed : t.Freed k.fs.view.tree

/-- The disk spells the tree `t`, and the call may draw `room` blocks. -/
structure Spells (k : Kernel) (L : Ledger) (refs : List Ref) (room : Nat) (t : Tree) : Prop where
  within : k.Within L refs room
  tree : k.fs.view.tree = t

/-! ### The end of a call -/

section Ends

theorem Spells.ends (spells : k.Spells L refs room t) : k.Ends L refs t :=
  ⟨spells.within.fewer (Nat.zero_le _), spells.tree ▸ .refl _⟩

theorem Ends.swap {r' : Ref} (ends : k.Ends L (r :: r' :: refs) t) : k.Ends L (r' :: r :: refs) t :=
  ⟨ends.within.swap, ends.freed⟩

theorem Ends.live (ends : k.Ends L refs t) (member : r ∈ refs) (loaded : r.loaded = true) :
    t.Live r.inum :=
  (ends.freed.kept (ends.within.live member loaded)).1

theorem Ends.type (ends : k.Ends L refs t) (member : r ∈ refs) (loaded : r.loaded = true) :
    (k.icache r.slot).din.type = t.type r.inum := by
  rw [ends.within.type member loaded]
  exact (ends.freed.kept (ends.within.live member loaded)).2.1

theorem Ends.nlink (ends : k.Ends L refs t) (member : r ∈ refs) (loaded : r.loaded = true) :
    (k.icache r.slot).din.nlink = t.nlink r.inum := by
  rw [ends.within.nlink member loaded]
  exact (ends.freed.kept (ends.within.live member loaded)).2.2

theorem Ends.ilock (ends : k.Ends L (r :: refs) t) (inside : r.inum < L.ninodes) :
    Meets (k.ilock r.slot) (fun k' => k'.Ends L (r.load :: refs) t) fun _ => True := by
  refine (ends.within.ilock inside).imp ?_
  rintro k' ⟨calm, within⟩
  exact ⟨within, calm.fs ▸ ends.freed⟩

theorem Ends.iput (ends : k.Ends L (r :: refs) t) :
    Meets (k.iput r.slot) (fun k' => k'.Ends L refs t) fun _ => True := by
  refine ends.within.iput.imp ?_
  rintro k' ⟨within, freed⟩
  exact ⟨within, ends.freed.trans freed⟩

theorem Ends.iunlock (ends : k.Ends L refs t) (s : Slot) :
    Meets (k.iunlock s) (fun k' => k'.Ends L refs t) fun _ => True := by
  refine (ends.within.iunlock s).imp ?_
  rintro k' ⟨calm, within⟩
  exact ⟨within, calm.fs ▸ ends.freed⟩

theorem Ends.iunlockput (ends : k.Ends L (r :: refs) t) :
    Meets (k.iunlockput r.slot) (fun k' => k'.Ends L refs t) fun _ => True :=
  (ends.iunlock r.slot).bind fun _ ends' => ends'.iput

theorem Ends.iupdate (ends : k.Ends L refs t) (member : r ∈ refs) (loaded : r.loaded = true)
    {din : Dinode} (fields : din = { (k.icache r.slot).din with
      nlink := din.nlink, major := din.major, minor := din.minor }) :
    Meets (k.iupdate r.slot din) (fun k' => k'.Ends L refs (t.setNlink r.inum din.nlink))
      fun _ => True := by
  refine (ends.within.iupdate member loaded fields).imp ?_
  rintro k' ⟨within, tree⟩
  exact ⟨within, tree ▸ ends.freed.setNlink (ends.within.live member loaded) _⟩

theorem Ends.beginOp (ends : k.Ends L refs t) :
    Meets k.beginOp (fun k' => k'.Ends L refs t) fun _ => True := by
  refine ends.within.beginOp.imp ?_
  rintro k' ⟨within, view⟩
  exact ⟨within, view ▸ ends.freed⟩

theorem Ends.endOp (ends : k.Ends L refs t) :
    Meets k.endOp (fun k' => k'.Ends L refs t) fun _ => True := by
  refine ends.within.endOp.imp ?_
  rintro k' ⟨within, tree⟩
  exact ⟨within, tree ▸ ends.freed⟩

theorem Ends.not_dir (ends : k.Ends L (r :: refs) t) (plain : ¬ t.Dir r.inum) :
    ¬ k.fs.view.tree.Dir (k.icache r.slot).inum := by
  rw [(ends.within.points r List.mem_cons_self).1]
  intro dir
  exact plain ((ends.freed.kept dir.live).2.1.symm.trans dir)

theorem Ends.loaded {s : Slot} {i : Nat} (ends : k.Ends L (Ref.load ⟨s, i, false⟩ :: refs) t) :
    (k.icache s).din.type = t.type i ∧ (k.icache s).din.nlink = t.nlink i ∧ t.Live i :=
  ⟨ends.type (r := ⟨s, i, true⟩) List.mem_cons_self rfl,
    ends.nlink (r := ⟨s, i, true⟩) List.mem_cons_self rfl,
    ends.live (r := ⟨s, i, true⟩) List.mem_cons_self rfl⟩

end Ends

/-! ### Before the first change -/

section Spells

variable {path name : List UInt8}

theorem Within.spells (within : k.Within L refs room) : k.Spells L refs room k.fs.view.tree :=
  ⟨within, rfl⟩

theorem Spells.beginOp (spells : k.Spells L refs room t) :
    Meets k.beginOp (fun k' => k'.Spells L refs room t) fun _ => True := by
  refine spells.within.beginOp.imp ?_
  rintro k' ⟨within, view⟩
  exact ⟨within, view ▸ spells.tree⟩

theorem Spells.ilock (spells : k.Spells L (r :: refs) room t) (inside : r.inum < L.ninodes) :
    Meets (k.ilock r.slot) (fun k' => k'.Spells L (r.load :: refs) room t) fun _ => True := by
  refine (spells.within.ilock inside).imp ?_
  rintro k' ⟨calm, within⟩
  exact ⟨within, calm.fs ▸ spells.tree⟩

theorem Spells.iunlock (spells : k.Spells L refs room t) (s : Slot) :
    Meets (k.iunlock s) (fun k' => k'.Spells L refs room t) fun _ => True := by
  refine (spells.within.iunlock s).imp ?_
  rintro k' ⟨calm, within⟩
  exact ⟨within, calm.fs ▸ spells.tree⟩

theorem Spells.iupdate (spells : k.Spells L refs room t) (member : r ∈ refs)
    (loaded : r.loaded = true) {din : Dinode} (fields : din = { (k.icache r.slot).din with
      nlink := din.nlink, major := din.major, minor := din.minor }) :
    Meets (k.iupdate r.slot din)
      (fun k' => k'.Spells L refs room (t.setNlink r.inum din.nlink)) fun _ => True := by
  refine (spells.within.iupdate member loaded fields).imp ?_
  rintro k' ⟨within, tree⟩
  exact ⟨within, spells.tree ▸ tree⟩

theorem Spells.namei (spells : k.Spells L refs room t) (ranged : t.Ranged L.ninodes)
    (user : 0 < L.users cwd) :
    Meets (k.namei cwd path) (fun (found, k') =>
      found = none ∧ t.resolve (L.num cwd) path = none ∧ k'.Spells L refs room t ∨
      ∃ s i, found = some s ∧ t.resolve (L.num cwd) path = some i ∧ i < L.ninodes ∧
        k'.Spells L (⟨s, i, false⟩ :: refs) room t) fun _ => True := by
  obtain ⟨within, rfl⟩ := spells
  refine (within.namei ranged user path).imp ?_
  rintro ⟨found, k'⟩ ⟨fs, ⟨none, goal, within'⟩ | ⟨s, i, is, goal, low, within'⟩⟩
  · exact .inl ⟨none, goal, within', by rw [fs]⟩
  · exact .inr ⟨s, i, is, goal, low, within', by rw [fs]⟩

theorem Spells.nameiparent (spells : k.Spells L refs room t) (ranged : t.Ranged L.ninodes)
    (user : 0 < L.users cwd) :
    Meets (k.nameiparent cwd path) (fun (found, k') =>
      found = none ∧ t.resolveParent (L.num cwd) path = none ∧ k'.Spells L refs room t ∨
      ∃ s d name, found = some (s, name) ∧
      t.resolveParent (L.num cwd) path = some (d, name) ∧ t.Dir d ∧
        d < L.ninodes ∧ k'.Spells L (⟨s, d, false⟩ :: refs) room t) fun _ => True := by
  obtain ⟨within, rfl⟩ := spells
  refine (within.nameiparent ranged user path).imp ?_
  rintro ⟨found, k'⟩ ⟨fs, walked⟩
  rcases walked.cases with ⟨none, goal, within'⟩ | ⟨s, d, name, is, goal, within'⟩
  · exact .inl ⟨none, goal, within', by rw [fs]⟩
  · have dir := Tree.resolveParent_dir goal
    exact .inr ⟨s, d, name, is, goal, dir, ranged.live d dir.live, within', by rw [fs]⟩

theorem Spells.dirlookup (spells : k.Spells L (r :: refs) room t) (ranged : t.Ranged L.ninodes)
    (loaded : r.loaded = true) (dir : t.Dir r.inum) :
    Meets (k.dirlookup r.slot name) (fun (found, k') =>
      found = none ∧ findIn name (t.ents r.inum) = none ∧ k'.Spells L (r :: refs) room t ∨
      ∃ s de p, found = some (s, DIRENTSIZE * p) ∧ findIn name (t.ents r.inum) = some (de, p) ∧
        de.inum.toNat < L.ninodes ∧ k'.Spells L (⟨s, de.inum.toNat, false⟩ :: r :: refs) room t)
        fun _ => True := by
  obtain ⟨within, rfl⟩ := spells
  refine (within.dirlookup List.mem_cons_self loaded dir name).imp ?_
  rintro ⟨found, k'⟩ ⟨calm, looked⟩
  rcases looked.cases with ⟨none, entry, within'⟩ | ⟨s, de, p, is, entry, within'⟩
  · exact .inl ⟨none, entry, within', by rw [calm.fs]⟩
  · exact .inr ⟨s, de, p, is, entry, ranged.leads _ _ (Tree.leads_of_found entry),
      within', by rw [calm.fs]⟩

theorem Spells.dirlink (spells : k.Spells L refs room t) (member : r ∈ refs)
    (loaded : r.loaded = true) (dir : t.Dir r.inum)
    (enough : entryCost (t.ents r.inum).length ≤ room) (i : Nat) :
    Meets (k.dirlink r.slot name i) (fun (res, k') =>
      res = -1 ∧ (findIn name (t.ents r.inum)).isSome = true ∧ k'.Spells L refs room t ∨
      res = 0 ∧ findIn name (t.ents r.inum) = none ∧
        k'.Spells L refs (room - entryCost (t.ents r.inum).length) (t.place r.inum name i)) fun _ =>
        True := by
  obtain ⟨within, rfl⟩ := spells
  refine (within.dirlink member loaded dir enough name i).imp ?_
  rintro ⟨res, k'⟩ linked
  cases linked with
  | there known same within' => exact .inl ⟨rfl, known, within', by rw [same]⟩
  | placed absent tree within' => exact .inr ⟨rfl, absent, within', tree⟩

end Spells

/-! ### `link` -/

section Link

variable {old new path name : List UInt8}

/-- The `bad` exit of `sys_link` takes the new count back. -/
theorem Ends.linkBad (ends : k.Ends L [r] t) (inside : r.inum < L.ninodes) :
    Meets (k.linkBad r.slot) (fun (_, k') => k'.Ends L [] (t.setNlink r.inum (t.nlink r.inum - 1)))
      fun _ => True := by
  refine (ends.ilock inside).bind fun k₁ ends₁ => ?_
  have nlink := ends₁.nlink (r := r.load) List.mem_cons_self rfl
  rw [show (k₁.icache r.slot).din.nlink = t.nlink r.inum from nlink]
  refine (ends₁.iupdate (r := r.load) List.mem_cons_self rfl rfl).bind fun k₂ ends₂ => ?_
  refine ends₂.iunlockput.bind fun k₃ ends₃ => ?_
  exact ends₃.endOp.bind fun k₄ ends₄ => ends₄

theorem setNlink_undo (t : Tree) (i : Nat) :
    (t.setNlink i (t.nlink i + 1)).setNlink i ((t.setNlink i (t.nlink i + 1)).nlink i - 1) = t := by
  have back : (t.setNlink i (t.nlink i + 1)).nlink i - 1 = t.nlink i := by
    show update t.nlink i (t.nlink i + 1) i - 1 = t.nlink i
    rw [update_self]
    exact Int16.add_sub_cancel _ _
  rw [back]
  refine Tree.ext rfl ?_ rfl
  show update (update t.nlink i _) i _ = t.nlink
  rw [update_idem, update_eq_self]

theorem Spells.linkEntry (spells : k.Spells L [r] 2 t) (ranged : t.Ranged L.ninodes)
    (user : 0 < L.users cwd) (inside : r.inum < L.ninodes) (new : List UInt8) :
    Meets (k.linkEntry cwd r.slot new) (fun (_, k') => ∃ t',
      (t' = t.setNlink r.inum (t.nlink r.inum - 1) ∧
        (∀ d name, t.resolveParent (L.num cwd) new = some (d, name) →
        (findIn name (t.ents d)).isSome = true) ∨
      ∃ d name, t.resolveParent (L.num cwd) new = some (d, name) ∧ findIn name (t.ents d) = none ∧
        t' = t.place d name r.inum) ∧ k'.Ends L [] t') fun _ => True := by
  unfold Kernel.linkEntry
  refine (spells.nameiparent ranged user).bind ?_
  rintro ⟨_, k₁⟩ (⟨rfl, parent, spells₁⟩ | ⟨dp, d, name, rfl, parent, dir, low, spells₁⟩)
  · refine (spells₁.ends.linkBad inside).imp ?_
    rintro ⟨_, k'⟩ ends
    exact ⟨_, .inl ⟨rfl, fun d name absurdity => by cases parent.symm.trans absurdity⟩, ends⟩
  refine (spells₁.ilock low).bind fun k₂ spells₂ => ?_
  have within₂ := spells₂.within
  have devs : (k₂.icache dp).dev = (k₂.icache r.slot).dev := by
    rw [within₂.coherent.dev dp (within₂.used (r := Ref.load ⟨dp, d, false⟩) List.mem_cons_self),
      within₂.coherent.dev r.slot (within₂.used (List.mem_cons_of_mem _ List.mem_cons_self))]
  have number : (k₂.icache r.slot).inum = r.inum :=
    (within₂.points r (List.mem_cons_of_mem _ List.mem_cons_self)).1
  simp only
  rw [if_neg (not_not.mpr devs), number]
  refine (spells₂.dirlink (r :=
    Ref.load ⟨dp, d, false⟩) List.mem_cons_self rfl dir (entryCost_le _) r.inum).bind ?_
  rintro ⟨_, k₃⟩ (⟨rfl, known, spells₃⟩ | ⟨rfl, absent, spells₃⟩)
  · refine spells₃.ends.iunlockput.bind fun k₄ ends₄ => (ends₄.linkBad inside).imp ?_
    rintro ⟨_, k'⟩ ends
    refine ⟨_, .inl ⟨rfl, fun d' name' same => ?_⟩, ends⟩
    cases parent.symm.trans same
    exact known
  · refine spells₃.ends.iunlockput.bind fun k₄ ends₄ => ?_
    refine ends₄.iput.bind fun k₅ ends₅ => ?_
    exact ends₅.endOp.bind fun k₆ ends₆ => ⟨_, .inr ⟨d, name, parent, absent, rfl⟩, ends₆⟩

/-- `sys_link` does what `Tree.Links` says. -/
theorem Spells.sysLink (spells : k.Spells L [] 2 t) (ranged : t.Ranged L.ninodes)
    (user : 0 < L.users cwd) :
    Meets (k.sysLink cwd old new)
      (fun (_, k') => ∃ t', t.Links (L.num cwd) old new t' ∧ k'.Ends L [] t')
      fun _ => True := by
  unfold Kernel.sysLink
  refine spells.beginOp.bind fun k₁ spells₁ => ?_
  refine (spells₁.namei ranged user).bind ?_
  rintro ⟨_, k₂⟩ (⟨rfl, target, spells₂⟩ | ⟨s, i, rfl, target, inside, spells₂⟩)
  · exact spells₂.ends.endOp.bind fun k₃ ends => ⟨t, by simp [Tree.Links, target], ends⟩
  refine (spells₂.ilock inside).bind fun k₃ spells₃ => ?_
  obtain ⟨type, nlink, live⟩ := spells₃.ends.loaded
  show Meets (if (k₃.icache s).din.type = T_DIR then _ else _) _ _
  rw [type]
  by_cases dir : t.Dir i
  · rw [if_pos (show t.type i = T_DIR from dir)]
    refine spells₃.ends.iunlockput.bind fun k₄ ends₄ => ?_
    exact ends₄.endOp.bind fun k₅ ends₅ => ⟨t, by simp [Tree.Links, target, dir], ends₅⟩
  rw [if_neg (show ¬ t.type i = T_DIR from dir), nlink]
  refine (spells₃.iupdate (r := Ref.load ⟨s, i, false⟩) List.mem_cons_self rfl rfl).bind
    fun k₄ spells₄ => ?_
  refine (spells₄.iunlock s).bind fun k₅ spells₅ => ?_
  have parents :
      (t.setNlink i (t.nlink i + 1)).resolveParent (L.num cwd) new =
      t.resolveParent (L.num cwd) new :=
    @Tree.walk_congr t (t.setNlink i (t.nlink i + 1)) rfl rfl _ _ _ _
  refine (spells₅.linkEntry (ranged.setNlink _ _) user inside new).imp ?_
  rintro ⟨_, k'⟩ ⟨t', change, ends⟩
  refine ⟨t', ?_, ends⟩
  unfold Tree.Links
  simp only [target]
  rw [if_neg dir, ← parents]
  rcases change with ⟨rfl, known⟩ | ⟨d, name, parent, absent, rfl⟩
  · split
    · exact setNlink_undo t i
    · next d name parent =>
      obtain ⟨x, entry⟩ := Option.isSome_iff_exists.1 (known d name parent)
      simp only [show findIn name (t.ents d) = some x from entry]
      exact setNlink_undo t i
  · rw [show (t.setNlink i (t.nlink i + 1)).resolveParent (L.num cwd) new = some (d, name)
      from parent]
    simp only [show findIn name (t.ents d) = none from absent]
    exact ⟨live, rfl⟩

end Link

/-! ### `unlink` -/

section Unlink

variable {path name : List UInt8} {p : Nat}

theorem Within.isdirempty (within : k.Within L refs room) (member : r ∈ refs)
    (loaded : r.loaded = true) (dir : k.fs.view.tree.Dir r.inum) :
    Meets (k.isdirempty r.slot) (fun (empty, k') => k' = k ∧
      (empty = true ↔ k.fs.view.tree.Empty r.inum)) fun _ => True := by
  have ents := within.ents member dir
  refine ((within.coherent.scan_meets (within.openDir member loaded dir) 2).weaken).bind ?_
  rintro ⟨found, m⟩ ⟨rfl, search, _⟩
  refine ⟨rfl, ?_⟩
  unfold Tree.Empty
  rw [← ents]
  cases entry : m.fs.view.findEntry (m.icache r.slot).inum 2 (fun de => de.inum != 0) with
  | none =>
    rw [entry] at search
    obtain rfl : found = none := search
    refine iff_of_true rfl fun p de from' at' => ?_
    simpa using View.findEntry_eq_none entry from' at'
  | some x =>
    obtain ⟨de, p⟩ := x
    rw [entry] at search
    obtain rfl : found = some (de, DIRENTSIZE * p) := search
    obtain ⟨from', at', used⟩ := View.findEntry_eq_some entry
    refine iff_of_false (by rintro ⟨⟩) fun empty => ?_
    rw [empty p de from' at'] at used
    cases used

theorem Ends.unlinkBad (ends : k.Ends L [r] t) :
    Meets (k.unlinkBad r.slot) (fun (_, k') => k'.Ends L [] t) fun _ => True :=
  ends.iunlockput.bind fun _ ends' => ends'.endOp.bind fun _ ends'' => ends''

theorem Spells.unlinkEntry {d : Ref} (spells : k.Spells L [r, d] room t) (dloaded : d.loaded = true)
    (loaded : r.loaded = true) (dir : t.Dir d.inum) (inside : p < (t.ents d.inum).length) :
    Meets (k.unlinkEntry d.slot r.slot (DIRENTSIZE * p))
      (fun (_, k') => k'.Ends L [] (t.unlink d.inum p r.inum))
      fun _ => True := by
  obtain ⟨within, rfl⟩ := spells
  unfold Kernel.unlinkEntry
  have dmember : d ∈ [r, d] := List.mem_cons_of_mem _ List.mem_cons_self
  refine (within.clearEntry dmember dloaded dir inside).bind ?_
  rintro ⟨_, k₁⟩ ⟨rfl, within₁, tree₁⟩
  have ends₁ := Spells.ends ⟨within₁, tree₁⟩
  show Meets (if (DIRENTSIZE : Int) ≠ DIRENTSIZE then _ else _) _ _
  rw [if_neg (not_not.mpr rfl)]
  have type : (k₁.icache r.slot).din.type = k.fs.view.tree.type r.inum :=
    ends₁.type List.mem_cons_self loaded
  have nlink : (k₁.icache d.slot).din.nlink = k.fs.view.tree.nlink d.inum :=
    ends₁.nlink dmember dloaded
  -- The tree behind the count of the directory.
  have parent : Meets (if (k₁.icache r.slot).din.type = T_DIR then
        k₁.iupdate d.slot { (k₁.icache d.slot).din with nlink := (k₁.icache d.slot).din.nlink - 1 }
      else .ok k₁) (fun k' => k'.Ends L [r, d] (if k.fs.view.tree.Dir r.inum then
        (k.fs.view.tree.clear d.inum p).setNlink d.inum (k.fs.view.tree.nlink d.inum - 1)
      else k.fs.view.tree.clear d.inum p)) fun _ => True := by
    rw [type, nlink]
    by_cases isDir : k.fs.view.tree.Dir r.inum
    · rw [if_pos isDir, if_pos (show k.fs.view.tree.type r.inum = T_DIR from isDir)]
      exact ends₁.iupdate dmember dloaded rfl
    · rw [if_neg isDir, if_neg (show ¬ k.fs.view.tree.type r.inum = T_DIR from isDir)]
      exact ends₁
  refine Meets.ite_bind parent fun k₂ ends₂ => ?_
  refine ends₂.swap.iunlockput.bind fun k₃ ends₃ => ?_
  rw [ends₃.nlink List.mem_cons_self loaded]
  refine (ends₃.iupdate List.mem_cons_self loaded rfl).bind fun k₄ ends₄ => ?_
  refine ends₄.iunlockput.bind fun k₅ ends₅ => ?_
  exact ends₅.endOp.bind fun k₆ ends₆ => ends₆

/-- `sys_unlink` does what `Tree.Unlinks` says. -/
theorem Spells.sysUnlink (spells : k.Spells L [] room t) (ranged : t.Ranged L.ninodes)
    (user : 0 < L.users cwd) :
    Meets (k.sysUnlink cwd path)
      (fun (_, k') => ∃ t', t.Unlinks (L.num cwd) path t' ∧ k'.Ends L [] t')
      fun _ => True := by
  unfold Kernel.sysUnlink
  refine spells.beginOp.bind fun k₁ spells₁ => ?_
  refine (spells₁.nameiparent ranged user).bind ?_
  rintro ⟨_, k₂⟩ (⟨rfl, parent, spells₂⟩ | ⟨dp, d, name, rfl, parent, dir, low, spells₂⟩)
  · exact spells₂.ends.endOp.bind fun k₃ ends => ⟨t, by simp [Tree.Unlinks, parent], ends⟩
  -- A call that removes nothing.
  have bad : ∀ {m : Kernel}, m.Ends L [Ref.load ⟨dp, d, false⟩] t → t.Unlinks (L.num cwd) path t →
      Meets (m.unlinkBad dp)
      (fun (_, k') => ∃ t', t.Unlinks (L.num cwd) path t' ∧ k'.Ends L [] t') fun _ => True :=
    fun ends same => ends.unlinkBad.imp fun _ ends' => ⟨t, same, ends'⟩
  refine (spells₂.ilock low).bind fun k₃ spells₃ => ?_
  simp only
  split
  · next dots => exact bad spells₃.ends (by simp [Tree.Unlinks, parent, dots])
  next proper =>
  refine (spells₃.dirlookup ranged rfl dir).bind ?_
  rintro ⟨_, k₄⟩ (⟨rfl, entry, spells₄⟩ | ⟨s, de, p, rfl, entry, inside, spells₄⟩)
  · exact bad spells₄.ends
      (by simp [Tree.Unlinks, parent, proper, show findIn name (t.ents d) = none from entry])
  have entry : findIn name (t.ents d) = some (de, p) := entry
  refine (spells₄.ilock inside).bind fun k₅ spells₅ => ?_
  obtain ⟨type, _, live⟩ := spells₅.ends.loaded
  split
  · trivial
  have checks : Meets (if (k₅.icache s).din.type = T_DIR then k₅.isdirempty s else .ok (true, k₅))
      (fun x => x.2 = k₅ ∧ (x.1 = true ↔ (t.Dir de.inum.toNat → t.Empty de.inum.toNat))) fun _ =>
        True := by
    rw [type]
    by_cases isDir : t.Dir de.inum.toNat
    · rw [if_pos (show t.type de.inum.toNat = T_DIR from isDir)]
      have empties :=
        spells₅.within.isdirempty (r := ⟨s, de.inum.toNat, true⟩) List.mem_cons_self rfl
        (spells₅.tree ▸ isDir)
      rw [spells₅.tree] at empties
      exact empties.imp fun _ good => ⟨good.1, good.2.trans ⟨fun e _ => e, fun e => e isDir⟩⟩
    · rw [if_neg (show ¬ t.type de.inum.toNat = T_DIR from isDir)]
      exact ⟨rfl, iff_of_true rfl fun absurdity => absurd absurdity isDir⟩
  refine Meets.ite_bind checks ?_
  rintro ⟨empty, _⟩ ⟨rfl, iff⟩
  simp only
  split
  · next isEmpty =>
    have inside := (List.getElem?_eq_some_iff.mp (findIn_eq_some entry).1).1
    refine (spells₅.unlinkEntry (r := ⟨s, de.inum.toNat, true⟩)
      (d := ⟨dp, d, true⟩) rfl rfl dir inside).imp ?_
    rintro ⟨_, k'⟩ ends
    refine ⟨_, ?_, ends⟩
    simp only [Tree.Unlinks, parent, entry, if_neg proper]
    exact .inr ⟨trivial, live, iff.mp isEmpty⟩
  · next full =>
    refine spells₅.ends.iunlockput.bind fun k₇ ends₇ => bad ends₇ ?_
    simp only [Tree.Unlinks, parent, entry, if_neg proper]
    exact .inl ⟨trivial, Classical.not_imp.mp (iff.not.mp full)⟩

end Unlink

/-! ### `create` -/

section Create

variable {path name : List UInt8} {type major minor : Int16}

theorem place_dots {i d : Nat} (number : 0 < i ∧ i < 2 ^ 16) {t : Tree} (new : t.ents i = []) :
    (t.place i [46] i).place i [46, 46] d = t.setEnts i (Dirent.dots i d) := by
  have used : (Dirent.link [46] i).inum ≠ 0 := by
    intro zero
    have back : (Dirent.link [46] i).inum.toNat = i := Dirent.toNat_link number.2
    rw [zero] at back
    exact absurd number.1 (by rw [← back]; decide)
  have first : (t.place i [46] i).ents i = [Dirent.link [46] i] := by
    show update t.ents i (splice (t.ents i) (emptyIn (t.ents i)) [Dirent.link [46] i]) i = _
    rw [update_self, new]
    rfl
  have second : emptyIn [Dirent.link [46] i] = 1 := by
    unfold emptyIn
    rw [List.zipIdx_cons, List.zipIdx_nil, List.find?_cons_of_neg (by simpa using used)]
    rfl
  unfold Tree.place at first ⊢
  rw [first, second]
  refine Tree.ext rfl rfl ?_
  show update (update t.ents i _) i _ = update t.ents i _
  rw [update_idem]
  rfl

theorem Spells.createDots {d : Ref} (spells : k.Spells L [r, d] room t) (dloaded : d.loaded = true)
    (loaded : r.loaded = true) (enough : 1 ≤ room) (dir : t.Dir r.inum)
    (new : t.ents r.inum = []) (number : 0 < r.inum ∧ r.inum < 2 ^ 16) :
    Meets (k.createDots d.slot r.slot) (fun k' => k'.Spells L [r, d] (room - 1)
      ((t.setNlink d.inum (t.nlink d.inum + 1)).setEnts r.inum (Dirent.dots r.inum d.inum)))
      fun _ => True := by
  have dmember : d ∈ [r, d] := List.mem_cons_of_mem _ List.mem_cons_self
  unfold Kernel.createDots
  rw [spells.ends.nlink dmember dloaded]
  refine (spells.iupdate dmember dloaded rfl).bind fun k₁ spells₁ => ?_
  rw [(spells₁.within.points r List.mem_cons_self).1]
  refine (spells₁.dirlink List.mem_cons_self loaded dir ?_ r.inum).bind ?_
  · show entryCost (t.ents r.inum).length ≤ room
    rw [new]
    exact enough
  rintro ⟨_, k₂⟩ (⟨rfl, _⟩ | ⟨rfl, _, spells₂⟩)
  · trivial
  have one :
      (((t.setNlink d.inum (t.nlink d.inum + 1)).place r.inum [46] r.inum).ents r.inum).length =
      1 := by
    show (update t.ents r.inum (splice (t.ents r.inum) (emptyIn (t.ents r.inum)) _) r.inum).length =
      1
    rw [update_self, new]
    rfl
  show Meets (k₂.dirlink r.slot [46, 46] (k₂.icache d.slot).inum >>= _) _ _
  rw [(spells₂.within.points d dmember).1]
  refine (spells₂.dirlink List.mem_cons_self loaded dir (by rw [one]; exact Nat.zero_le _)
    d.inum).bind ?_
  rintro ⟨_, k₃⟩ (⟨rfl, _⟩ | ⟨rfl, _, spells₃⟩)
  · trivial
  have cost : entryCost ((t.setNlink d.inum (t.nlink d.inum + 1)).ents r.inum).length = 1 := by
    show entryCost (t.ents r.inum).length = 1
    rw [new]
    rfl
  rw [one, cost, place_dots number (show (t.setNlink d.inum _).ents r.inum = [] from new)]
    at spells₃
  exact spells₃

theorem add_setNlink (t : Tree) (i : Nat) (type : Int16) (l : List Dirent) :
    ((t.add i type l).setNlink i 0).setNlink i 1 = t.add i type l := by
  refine Tree.ext rfl ?_ rfl
  show update (update (update t.nlink i 1) i 0) i 1 = update t.nlink i 1
  rw [update_idem, update_idem]

/-- The blocks that `create` may draw. -/
def createCost (type : Int16) : Nat := if type = T_DIR then 3 else 2

theorem Spells.createNew {d : Ref} (spells : k.Spells L [d] (createCost type) t)
    (loaded : d.loaded = true) (ranged : t.Ranged L.ninodes) (dir : t.Dir d.inum)
    (allocated : type ≠ 0) (name : List UInt8) (major minor : Int16) :
    Meets (k.createNew d.slot name type major minor)
      (fun (s, k') => ∃ i, (0 < i ∧ i < L.ninodes) ∧ ¬ t.Live i ∧ k'.Ends L [⟨s, i, true⟩]
      (if type = T_DIR then t.mkDir d.inum name i else t.mkFile d.inum name i type))
      fun _ => True := by
  obtain ⟨within, start⟩ := spells
  have news := within.ialloc allocated
  rw [start] at news
  have split : k.createNew d.slot name type major minor = (do
      let (ip, k) ← (do
        let (ip, k) ← k.ialloc ROOTDEV type
        let k ← k.ilock ip
        return (ip, k) : Except Halt (Slot × Kernel))
      let k ← k.iupdate ip { (k.icache ip).din with major, minor, nlink := 1 }
      let k ← if type = T_DIR then k.createDots d.slot ip else .ok k
      let (r, k) ← k.dirlink d.slot name (k.icache ip).inum
      if r < 0 then .error (.panic .createDirlink)
      else
        let k ← k.iunlockput d.slot
        return (ip, k)) := by
    unfold Kernel.createNew
    rw [within.coherent.dev d.slot (within.used List.mem_cons_self)]
    simp only [bind_assoc, pure_bind]
  rw [split]
  refine news.bind ?_
  rintro ⟨s, k₁⟩ ⟨i, number, free, within₁, tree₁⟩
  have differs : d.inum ≠ i := by
    intro same
    exact free (same ▸ dir.live)
  refine (Spells.iupdate ⟨within₁, tree₁⟩ (r := ⟨s, i, true⟩) List.mem_cons_self rfl rfl).bind
    fun k₂ spells₂ => ?_
  rw [show ((t.add i type []).setNlink i 0).setNlink i 1 = t.add i type []
    from add_setNlink t i type []] at spells₂
  -- The new inode with its first entries.
  have dots : Meets (if type = T_DIR then k₂.createDots d.slot s else .ok k₂) (fun k' =>
      k'.Spells L [⟨s, i, true⟩, d] 2 (if type = T_DIR then
        (t.add i T_DIR (Dirent.dots i d.inum)).setNlink d.inum (t.nlink d.inum + 1)
      else t.add i type [])) fun _ => True := by
    by_cases isDir : type = T_DIR
    · subst isDir
      rw [if_pos rfl, if_pos rfl]
      have tree :
          ((t.add i T_DIR []).setNlink d.inum ((t.add i T_DIR []).nlink d.inum + 1)).setEnts i
            (Dirent.dots i d.inum) =
              (t.add i T_DIR (Dirent.dots i d.inum)).setNlink d.inum (t.nlink d.inum + 1) := by
        refine Tree.ext rfl ?_ (update_idem ..)
        show update (update t.nlink i 1) d.inum (update t.nlink i 1 d.inum + 1) =
          update (update t.nlink i 1) d.inum _
        rw [update_of_ne differs]
      rw [← tree]
      exact spells₂.createDots (r := ⟨s, i, true⟩) loaded rfl (by decide) (update_self ..)
        (update_self ..)
        ⟨number.1, number.2.trans_le ranged.small⟩
    · rw [if_neg isDir, if_neg isDir]
      rw [show createCost type = 2 from if_neg isDir] at spells₂
      exact spells₂
  refine Meets.ite_bind dots fun k₃ spells₃ => ?_
  beta_reduce
  rw [(spells₃.within.points ⟨s, i, true⟩ List.mem_cons_self).1]
  refine (spells₃.dirlink (r := d)
    (List.mem_cons_of_mem _ List.mem_cons_self) loaded ?_ (entryCost_le _) i).bind ?_
  · split <;> exact (update_of_ne differs ..).trans dir
  rintro ⟨_, k₄⟩ (⟨rfl, _⟩ | ⟨rfl, _, spells₄⟩)
  · trivial
  refine spells₄.ends.swap.iunlockput.bind fun k₅ ends₅ => ⟨i, number, free, ?_⟩
  split at ends₅
  · next isDir =>
    rw [if_pos isDir]
    exact ends₅
  · next plain =>
    rw [if_neg plain]
    exact ends₅

/-- The inode that a call returns loaded, if it returns one. -/
def Returned (k' : Kernel) (L : Ledger) (t : Tree) : Option Slot → Option Nat → Prop
  | none, none => k'.Ends L [] t
  | some s, some i => k'.Ends L [⟨s, i, true⟩] t
  | _, _ => False

/-- `create` does what `Tree.Creates` says. -/
theorem Spells.create (spells : k.Spells L [] (createCost type) t) (ranged : t.Ranged L.ninodes)
    (user : 0 < L.users cwd) (allocated : type ≠ 0) :
    Meets (k.create cwd path type major minor) (fun (made, k') => ∃ t' made',
      t.Creates L.ninodes (L.num cwd) path type t' made' ∧ k'.Returned L t' made made') fun _ =>
      True := by
  unfold Kernel.create
  refine (spells.nameiparent ranged user).bind ?_
  rintro ⟨_, k₁⟩ (⟨rfl, parent, spells₁⟩ | ⟨dp, d, name, rfl, parent, dir, low, spells₁⟩)
  · exact ⟨t, none, by simp [Tree.Creates, parent], spells₁.ends⟩
  refine (spells₁.ilock low).bind fun k₂ spells₂ => ?_
  refine (spells₂.dirlookup ranged rfl dir).bind ?_
  rintro ⟨_, k₃⟩ (⟨rfl, entry, spells₃⟩ | ⟨s, de, p, rfl, entry, inside, spells₃⟩)
  · refine (spells₃.createNew rfl ranged dir allocated name major minor).bind ?_
    rintro ⟨s, k'⟩ ⟨i, number, free, ends⟩
    refine ⟨_, some i, ?_, ends⟩
    simp only [Tree.Creates, parent, show findIn name (t.ents d) = none from entry]
    exact ⟨i, number, free, rfl, rfl⟩
  refine spells₃.ends.swap.iunlockput.bind fun k₄ ends₄ => ?_
  refine (ends₄.ilock inside).bind fun k₅ ends₅ => ?_
  have creates : t.Creates L.ninodes (L.num cwd) path type t
      (if type = T_FILE ∧ t.type de.inum.toNat = T_FILE then some de.inum.toNat else none) := by
    simp only [Tree.Creates, parent, show findIn name (t.ents d) = some (de, p) from entry]
    exact ⟨trivial, trivial⟩
  rw [ends₅.loaded.1]
  by_cases opens : type = T_FILE ∧ t.type de.inum.toNat = T_FILE
  · rw [if_pos opens] at creates ⊢
    exact ⟨t, _, creates, ends₅⟩
  · rw [if_neg opens] at creates ⊢
    exact ends₅.iunlockput.bind fun k₆ ends₆ => ⟨t, none, creates, ends₆⟩

theorem Spells.sysCreate (spells : k.Spells L [] (createCost type) t) (ranged : t.Ranged L.ninodes)
    (user : 0 < L.users cwd) (allocated : type ≠ 0) (path : List UInt8) (major minor : Int16) :
    Meets (k.sysCreate cwd path type major minor) (fun (_, k') => ∃ t' made,
      t.Creates L.ninodes (L.num cwd) path type t' made ∧ k'.Ends L [] t') fun _ => True := by
  unfold Kernel.sysCreate
  refine spells.beginOp.bind fun k₁ spells₁ => ?_
  refine (spells₁.create ranged user allocated).bind ?_
  rintro ⟨made, k₂⟩ ⟨t', made', creates, returned⟩
  cases made with
  | none =>
    cases made' with
    | some i => exact returned.elim
    | none => exact (Ends.endOp returned).bind fun k₃ ends => ⟨t', none, creates, ends⟩
  | some s =>
    cases made' with
    | none => exact returned.elim
    | some i =>
      refine (Ends.iunlockput returned).bind fun k₃ ends₃ => ?_
      exact ends₃.endOp.bind fun k₄ ends₄ => ⟨t', some i, creates, ends₄⟩

/-- What the part of `sys_open` that finds the inode does. -/
def OpensAt (t : Tree) (n cwd : Nat) (path : List UInt8) (omode : BitVec 32) (t' : Tree)
    (r : Option Nat) : Prop :=
  if omode &&& O_CREATE ≠ 0 then t.Creates n cwd path T_FILE t' r
  else t' = t ∧ ∀ i, r = some i → t.resolve cwd path = some i

theorem type_of_creates {t t' : Tree} {n cwd i : Nat}
    (creates : t.Creates n cwd path type t' (some i)) (plain : type ≠ T_DIR) :
    t'.type i = type := by
  unfold Tree.Creates at creates
  split at creates
  · cases creates.2
  · split at creates
    · obtain ⟨rfl, same⟩ := creates
      split at same
      · next both =>
        cases same
        exact both.2.trans both.1.symm
      · cases same
    · obtain ⟨j, _, _, same, rfl⟩ := creates
      cases same
      rw [if_neg plain]
      exact update_self ..

theorem Spells.openInode (path : List UInt8) (omode : BitVec 32)
    (spells : k.Spells L [] (if omode &&& O_CREATE ≠ 0 then createCost T_FILE else 0) t)
    (ranged : t.Ranged L.ninodes) (user : 0 < L.users cwd) :
    Meets (k.openInode cwd path omode) (fun (found, k') => ∃ t' r,
      OpensAt t L.ninodes (L.num cwd) path omode t' r ∧ k'.Returned L t' found r ∧
      ∀ i, r = some i → t'.Dir i → omode = O_RDONLY) fun _ => True := by
  unfold Kernel.openInode OpensAt
  by_cases create : omode &&& O_CREATE ≠ 0
  · rw [if_pos create] at spells ⊢
    refine (spells.create ranged user (by decide)).imp ?_
    rintro ⟨found, k'⟩ ⟨t', r, creates, returned⟩
    refine ⟨t', r, by rw [if_pos create]; exact creates, returned, ?_⟩
    rintro i rfl dir
    have file := type_of_creates creates (by decide)
    rw [show t'.type i = T_DIR from dir] at file
    exact absurd file (by decide)
  · rw [if_neg create] at spells ⊢
    simp only [if_neg create]
    refine (spells.namei ranged user).bind ?_
    rintro ⟨_, k₁⟩ (⟨rfl, target, spells₁⟩ | ⟨s, i, rfl, target, inside, spells₁⟩)
    · exact ⟨t, none, ⟨rfl, nofun⟩, spells₁.ends, nofun⟩
    refine (spells₁.ends.ilock inside).bind fun k₂ ends₂ => ?_
    rw [ends₂.loaded.1]
    by_cases refused : t.type i = T_DIR ∧ omode ≠ O_RDONLY
    · rw [if_pos refused]
      exact ends₂.iunlockput.bind fun k₃ ends₃ => ⟨t, none, ⟨rfl, nofun⟩, ends₃, nofun⟩
    · rw [if_neg refused]
      refine ⟨t, some i, ⟨rfl, ?_⟩, ends₂, ?_⟩
      · rintro j ⟨⟩
        exact target
      · rintro j ⟨⟩ dir
        by_contra other
        exact refused ⟨dir, other⟩

end Create

end Kernel

end Xv6
