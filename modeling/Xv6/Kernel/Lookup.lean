/-
**Path lookup is component-wise resolution.**

The components of a path are its runs of bytes other than `/`, cut to `DIRSIZ` bytes, and a lookup
follows them one by one from the root or from the current directory. A lookup holds two inodes at a
time; it stops with a panic only if the inode cache has fewer than two free slots.
-/

import Mathlib.Data.List.TakeWhile
import Xv6.Kernel.Tally
import Xv6.Kernel.Walk

namespace Xv6

open Lib

/-! ### Components -/

/-- The runs of bytes other than `/`, each cut to `DIRSIZ` bytes. -/
def components (path : List UInt8) : List (List UInt8) :=
  ((path.splitOnP (· == 47)).filter (· ≠ [])).map (·.take DIRSIZ)

theorem components_slash (path : List UInt8) : components (47 :: path) = components path := by
  unfold components
  rw [List.splitOnP_cons_eq_if_modifyHead, if_pos (beq_self_eq_true _),
    List.filter_cons_of_neg (by decide)]

theorem components_dropWhile (path : List UInt8) :
    components (path.dropWhile (· == 47)) = components path := by
  induction path with
  | nil => rfl
  | cons c path ih =>
    by_cases slash : c = 47
    · subst slash
      rw [List.dropWhile_cons_of_pos rfl, ih, components_slash]
    · rw [List.dropWhile_cons_of_neg (by simpa using slash)]

theorem components_run {c : UInt8} {path : List UInt8} (other : c ≠ 47) : components (c :: path) =
    ((c :: path).takeWhile (· != 47)).take DIRSIZ ::
    components ((c :: path).dropWhile (· != 47)) := by
  have run : ∀ x ∈ (c :: path).takeWhile (· != 47), (x == 47) = false := by
    intro x among
    simpa using List.mem_takeWhile_imp among
  have nonempty : (c :: path).takeWhile (· != 47) ≠ [] := by
    rw [List.takeWhile_cons_of_pos (by simpa using other)]
    exact List.cons_ne_nil _ _
  conv_lhs => rw [← List.takeWhile_append_dropWhile (p := (· != 47)) (l := c :: path)]
  generalize (c :: path).takeWhile (· != 47) = first at run nonempty
  cases rest : (c :: path).dropWhile (· != 47) with
  | nil =>
    rw [List.append_nil]
    unfold components
    rw [List.splitOnP_eq_singleton run, List.filter_cons_of_pos (by simpa using nonempty)]
    rfl
  | cons slash rest =>
    have is : (slash != 47) = false := by
      have := List.head_dropWhile_not (p := (· != 47)) (l := c :: path) (by rw [rest]; simp)
      simpa [rest] using this
    obtain rfl : slash = 47 := by simpa using is
    rw [components_slash]
    unfold components
    rw [List.splitOnP_append_cons_of_forall_mem run _ rfl,
      List.filter_cons_of_pos (by simpa using nonempty), List.map_cons]

/-- `skipelem` takes off the first component. -/
theorem components_of_skipelem {path name rest : List UInt8}
    (next : Kernel.skipelem path = some (name, rest)) :
    components path = name :: components rest ∧ (components rest = [] ↔ rest = []) := by
  unfold Kernel.skipelem at next
  simp only at next
  split at next
  · cases next
  · next nonempty =>
      obtain ⟨rfl, rfl⟩ := Prod.mk.inj (Option.some.inj next)
      have first : ∀ {path : List UInt8} {c tail}, path.dropWhile (· == 47) = c :: tail →
        c ≠ (47 : UInt8) := by
        intro path c tail is
        have := List.head_dropWhile_not (p := (· == 47)) (l := path) (by rw [is]; simp)
        simpa [is] using this
      rw [components_dropWhile, ← components_dropWhile path]
      cases element : path.dropWhile (· == 47) with
      | nil => exact absurd element nonempty
      | cons c tail =>
        refine ⟨components_run (first element), ?_⟩
        rw [← components_dropWhile]
        cases more : ((c :: tail).dropWhile (· != 47)).dropWhile (· == 47) with
        | nil => exact iff_of_true rfl rfl
        | cons d tail' =>
          rw [components_run (first more)]
          exact iff_of_false (List.cons_ne_nil _ _) (List.cons_ne_nil _ _)

theorem components_of_none {path : List UInt8} (none : Kernel.skipelem path = none) :
    components path = [] := by
  unfold Kernel.skipelem at none
  simp only at none
  split at none
  · next empty => rw [← components_dropWhile, empty]; rfl
  · cases none

/-! ### Resolution -/

namespace Tree

/-- The inode of the entry `name` in `d`, if `d` is a directory. -/
def child (t : Tree) (d : Nat) (name : List UInt8) : Option Nat :=
  if t.Dir d then (findIn name (t.ents d)).map fun x => x.1.inum.toNat else none

/-- The components are looked up in turn. -/
def follow (t : Tree) (i : Nat) (names : List (List UInt8)) : Option Nat := names.foldlM t.child i

/-- The directory before the last component, and that component. -/
def parentOf (t : Tree) (i : Nat) (names : List (List UInt8)) : Option (Nat × List UInt8) := do
  let last ← names.getLast?
  let d ← t.follow i names.dropLast
  if t.Dir d then some (d, last) else none

theorem child_of_dir {t : Tree} {d : Nat} (dir : t.Dir d) (name : List UInt8) :
    t.child d name = (findIn name (t.ents d)).map fun x => x.1.inum.toNat := if_pos dir

theorem follow_cons (t : Tree) (i : Nat) (name : List UInt8) (names : List (List UInt8)) :
    t.follow i (name :: names) = (t.child i name).bind fun j => t.follow j names :=
  List.foldlM_cons ..

theorem parentOf_cons (t : Tree) (i : Nat) (name : List UInt8) (names : List (List UInt8)) :
    t.parentOf i (name :: names) = if ¬ t.Dir i then none else if names = [] then some (i, name)
      else (t.child i name).bind fun j => t.parentOf j names := by
  cases names with
  | nil =>
    show (if t.Dir i then some (i, name) else none) = _
    by_cases dir : t.Dir i
    · rw [if_pos dir, if_neg (not_not.2 dir), if_pos rfl]
    · rw [if_neg dir, if_pos dir]
  | cons next names =>
    have step :
        t.parentOf i (name :: next :: names) = (t.child i name).bind fun j =>
        t.parentOf j (next :: names) := by
      unfold parentOf
      rw [List.getLast?_cons_cons, List.dropLast_cons_cons, follow_cons]
      cases t.child i name with
      | none => cases (next :: names).getLast? <;> rfl
      | some j => rfl
    rw [step, if_neg (List.cons_ne_nil _ _)]
    by_cases dir : t.Dir i
    · rw [if_neg (not_not.2 dir)]
    · rw [if_pos dir, child, if_neg dir]
      rfl

/-- The walk of the kernel's loop follows the components one by one. -/
theorem walk_eq (t : Tree) (i : Nat) (path name : List UInt8) :
    (t.walk i false path name).map Prod.fst = t.follow i (components path) ∧
      t.walk i true path name = t.parentOf i (components path) := by
  induction path using (measure List.length).wf.induction generalizing i name with
  | _ path ih =>
    cases next : Kernel.skipelem path with
    | none =>
      rw [walk_last _ next, walk_last _ next, components_of_none next]
      exact ⟨rfl, rfl⟩
    | some element =>
      obtain ⟨element, rest⟩ := element
      obtain ⟨split, last⟩ := components_of_skipelem next
      have further := fun j => ih rest (Kernel.length_skipelem next) j element
      rw [walk_next _ next, walk_next _ next, split, follow_cons, parentOf_cons]
      by_cases dir : t.Dir i
      · rw [if_neg (not_not.2 dir), if_neg (not_not.2 dir), if_neg (not_not.2 dir),
          child_of_dir dir, if_neg (c := false = true ∧ rest = []) fun both =>
          Bool.false_ne_true both.1]
        constructor
        · cases findIn element (t.ents i) with
          | none => rfl
          | some x => exact (further _).1
        · by_cases ends : rest = []
          · rw [if_pos ⟨rfl, ends⟩, if_pos (last.2 ends)]
          · rw [if_neg fun both => ends both.2, if_neg (last.not.2 ends)]
            cases findIn element (t.ents i) with
            | none => rfl
            | some x => exact (further _).2
      · rw [if_pos dir, if_pos dir, if_pos dir, child, if_neg dir]
        exact ⟨rfl, rfl⟩

end Tree

/-! ### Lookups return -/

namespace Kernel

/-- At most one slot of the inode cache is free. -/
def Crowded (k : Kernel) : Prop := ∀ s s', (k.icache s).ref = 0 → (k.icache s').ref = 0 → s = s'

variable {k k₀ : Kernel} {L : Ledger} {refs keep : List Ref} {r : Ref} {ip : Slot} {room : Nat}

theorem iget_runs (k : Kernel) (dev inum : Nat) :
    Meets (k.iget dev inum)
      (fun (_, k') => ∀ s, (k.icache s).ref ≠ 0 → (k'.icache s).busy = (k.icache s).busy)
      fun halt => halt = .panic .igetNoInodes ∧ ∀ s, (k.icache s).ref ≠ 0 := by
  have kept : ∀ (ip : Slot) (node : Inode) s, (s = ip → node.busy = (k.icache ip).busy) →
      ((k.setInode ip node).icache s).busy = (k.icache s).busy := by
    intro ip node s same
    by_cases here : s = ip
    · subst here
      rw [icache_setInode_self, same rfl]
    · rw [icache_setInode_of_ne here]
  unfold iget
  cases k.cached dev inum with
  | some ip => exact fun s _ => kept ip _ s fun _ => rfl
  | none =>
    cases slot : k.emptySlot with
    | none =>
      exact ⟨rfl,
        fun s free =>
        absurd free (by simpa using List.find?_eq_none.1 slot s (List.mem_finRange s))⟩
    | some ip =>
      have free : (k.icache ip).ref = 0 := by simpa using List.find?_some slot
      exact fun s used => kept ip _ s fun same => absurd free (same ▸ used)

theorem ilock_runs (used : 0 < (k.icache ip).ref) (idle : (k.icache ip).busy = false) :
    Meets (k.ilock ip) (fun k' => (k'.icache ip).busy = true) fun halt => halt =
      .panic .ilockNoType := by
  unfold ilock
  simp only
  rw [if_neg (by omega), if_neg (by rw [idle]; decide)]
  split
  · show ((k.setInode ip _).icache ip).busy = true
    rw [icache_setInode_self]
  split
  · rfl
  · show ((k.setInode ip _).icache ip).busy = true
    rw [icache_setInode_self]

theorem iunlock_runs (used : 0 < (k.icache ip).ref) (busy : (k.icache ip).busy = true)
    {bad : Halt → Prop} : Meets (k.iunlock ip) (fun _ => True) bad := by
  unfold iunlock
  simp only
  rw [if_neg (by rw [busy]; rintro (absurdity | absurdity); cases absurdity; omega)]
  trivial

/-- What keeps the inodes without links: users, or the references in `keep`. -/
def Kept (v : View) (L : Ledger) (keep : List Ref) : Prop :=
  ∀ i, v.Live i → (v.din i).nlink = 0 → (∃ s, 0 < L.users s ∧ L.num s = i) ∨ ∃ r ∈ keep, r.inum = i

theorem Within.kept (within : k.Within L refs room) : Kept k.fs.view L refs := by
  intro i live unlinked
  obtain ⟨s, user | member, number, _⟩ := within.anchored i live unlinked
  · exact .inl ⟨s, user, (within.nums s user).symm.trans number⟩
  · obtain ⟨r, listed, rfl⟩ := List.mem_map.1 member
    exact .inr ⟨r, listed, (within.points r listed).1.symm.trans number⟩

theorem Within.anchors_of_kept (within : k.Within L refs room) (kept : Kept k.fs.view L keep)
    (fewer : keep ⊆ refs) : k.Anchors L keep := by
  intro i live unlinked
  obtain ⟨s₀, used₀, number, valid⟩ := within.anchored i live unlinked
  have same : ∀ s, 0 < (k.icache s).ref → (k.icache s).inum = i → s = s₀ := fun s used is =>
    within.coherent.unique s s₀ used ((within.pos_iff s₀).2 used₀) (is.trans number.symm)
  rcases kept i live unlinked with ⟨s, user, is⟩ | ⟨r, member, is⟩
  · obtain rfl := same s ((within.pos_iff s).2 (.inl user)) ((within.nums s user).trans is)
    exact ⟨s, .inl user, number, valid⟩
  · obtain rfl :=
      same r.slot (within.used (fewer member)) ((within.points r (fewer member)).1.trans is)
    exact ⟨r.slot, .inr (List.mem_map_of_mem member), number, valid⟩

theorem Within.iunlockput_runs (within : k.Within L (r :: refs) room) (kept : Kept k.fs.view L keep)
    (fewer : keep ⊆ refs) (busy : (k.icache r.slot).busy = true) {bad : Halt → Prop} :
    Meets (k.iunlockput r.slot) (fun k' => k'.fs = k.fs ∧ k'.Within L refs room) bad := by
  refine ((within.iunlock r.slot).both (iunlock_runs (within.used List.mem_cons_self) busy)).mono
    (fun _ good => good) (fun _ absurdity => absurdity.2) |>.bind ?_
  rintro m ⟨⟨calm, within'⟩, _⟩
  refine (within'.iput_shared ((within'.anchors_of_kept (calm.fs ▸ kept) fun _ member =>
    List.mem_cons_of_mem _ (fewer member)).mono (List.map_subset _ fewer))).mono ?_ fun _ bad => bad
  rintro k' ⟨calm', within''⟩
  exact ⟨calm'.fs.trans calm.fs, within''⟩

theorem Within.dirlookup_runs (within : k.Within L refs room) (member : r ∈ refs)
    (loaded : r.loaded = true) (dir : k.fs.view.tree.Dir r.inum)
    (whole : (k.fs.view.din r.inum).size.toNat % DIRENTSIZE = 0) (name : List UInt8) :
    Meets (k.dirlookup r.slot name)
      (fun (_, k') => (k'.icache r.slot).busy = (k.icache r.slot).busy)
      fun halt => halt = .panic .igetNoInodes ∧ ∀ s, (k.icache s).ref ≠ 0 := by
  have opened := within.openDir member loaded dir
  rw [within.din member loaded] at whole
  unfold Kernel.dirlookup
  rw [if_neg (not_not.2 opened.dir)]
  refine ((within.coherent.scan_meets opened 0).mono (fun _ good => good) fun _ part =>
    absurd whole part.2).bind ?_
  rintro ⟨found, m⟩ ⟨rfl, _⟩
  cases found with
  | none => rfl
  | some entry => exact (iget_runs m _ _).bind fun x kept => kept r.slot (ne_of_gt opened.used)

/-- A lookup finds the cache full only if fewer than two slots were free before. -/
theorem Tally.crowded {locks : List Slot} {ops : Int} (tally : Tally k₀ k [ip] locks ops)
    (full : ∀ s, (k.icache s).ref ≠ 0) : k₀.Crowded := by
  have only : ∀ s, (k₀.icache s).ref = 0 → s = ip := by
    intro s free
    by_contra other
    have := tally.ref s
    rw [free, count_cons_ne other, List.count_nil] at this
    exact full s this
  exact fun s s' free free' => (only s free).trans (only s' free').symm

theorem Walked.inums {found : Option (Slot × List UInt8)} {goal : Option (Nat × List UInt8)}
    (walked : k.Walked L refs room found goal) :
    found.map (fun x => ((k.icache x.1).inum, x.2)) = goal := by
  cases found with
  | none =>
    cases goal with
    | none => rfl
    | some x => exact walked.elim
  | some x =>
    cases goal with
    | none => exact walked.elim
    | some goal =>
      obtain ⟨name, within⟩ := walked
      exact congrArg some (Prod.ext (within.points _ List.mem_cons_self).1 name)

/-- **The loop of `namex` returns**, unless it meets a free inode or finds no slot for the next
one. -/
theorem Within.namexLoop_runs {v : View} (ranged : v.tree.Ranged L.ninodes) (kept : Kept v L [])
    (whole : ∀ d, v.tree.Dir d → (v.din d).size.toNat % DIRENTSIZE = 0)
    (idle : ∀ s, (k₀.icache s).busy = false) (view : k.fs.view = v) (within : k.Within L [r] room)
    (tally : Tally k₀ k [r.slot] [] 0) (inside : r.inum < L.ninodes) (parent : Bool)
    (path name : List UInt8) :
    Meets (k.namexLoop r.slot parent path name) (fun _ => True)
      fun halt => halt = .panic .ilockNoType ∨ halt = .panic .igetNoInodes ∧ k₀.Crowded := by
  induction path using (measure List.length).wf.induction generalizing k r name with
  | _ path ih =>
    subst view
    rw [Kernel.namexLoop]
    split
    · split
      · exact (within.iput_shared (within.anchors_of_kept kept (List.nil_subset _))).bind fun _ _ =>
          trivial
      · trivial
    · next element rest next =>
        have free : (k.icache r.slot).busy = false := by
          by_contra busy
          rcases tally.busy r.slot (Bool.eq_true_of_not_eq_false busy) with before | none
          · rw [idle] at before
            cases before
          · cases none
        refine (((within.ilock inside).both (tally.ilock r.slot)).both
          (ilock_runs (within.used List.mem_cons_self) free)).mono (fun _ good => good)
          (fun _ bad => .inl bad.2) |>.bind ?_
        rintro k₁ ⟨⟨⟨calm₁, within₁⟩, tally₁⟩, busy₁⟩
        have kept₁ : Kept k₁.fs.view L [] := by rwa [calm₁.fs]
        split
        · exact (within₁.iunlockput_runs kept₁ (List.nil_subset _) busy₁).bind fun _ _ => trivial
        next isDir =>
        split
        · exact (iunlock_runs (within₁.used (r := r.load) List.mem_cons_self) busy₁).bind fun _ _ =>
            trivial
        · have dir : k₁.fs.view.tree.Dir r.load.inum := by
            exact (within₁.type (r := r.load) List.mem_cons_self rfl).symm.trans (not_not.1 isDir)
          refine (((within₁.dirlookup List.mem_cons_self rfl dir element).both
            (tally₁.dirlookup r.slot element)).both
            (within₁.dirlookup_runs List.mem_cons_self rfl dir
              (by rw [calm₁.fs] at dir ⊢; exact whole _ dir) element)).mono
            (fun _ good => good) (fun _ bad => .inr ⟨bad.2.1, tally₁.crowded bad.2.2⟩) |>.bind ?_
          rintro ⟨found, k₂⟩ ⟨⟨⟨calm₂, looked⟩, tally₂⟩, same⟩
          have kept₂ : Kept k₂.fs.view L [] := by rwa [calm₂.fs]
          have busy₂ : (k₂.icache r.slot).busy = true := Eq.trans same busy₁
          cases entry : findIn element (k₁.fs.view.tree.ents r.load.inum) with
          | none =>
            rw [entry] at looked
            cases found with
            | some x => exact looked.elim
            | none =>
              exact (looked.iunlockput_runs kept₂ (List.nil_subset _) busy₂).bind fun _ _ => trivial
          | some x =>
            rw [entry] at looked
            cases found with
            | none => exact looked.elim
            | some found =>
              obtain ⟨s, off⟩ := found
              have swapped : Tally k₀ k₂ (r.slot :: [s]) [r.slot] 0 :=
                { tally₂ with
                  ref := fun s' => by
                    rw [tally₂.ref, Kernel.found, (List.Perm.swap r.slot s []).count_eq] }
              refine ((looked.2.swap.iunlockput_runs kept₂ (List.nil_subset _) busy₂).both
                swapped.iunlockput).mono (fun _ good => good) (fun _ bad => bad.1) |>.bind ?_
              rintro k₃ ⟨⟨fs₃, within₃⟩, tally₃⟩
              have leads := Tree.leads_of_found entry
              rw [calm₁.fs] at leads
              exact ih rest (length_skipelem next) (by rw [fs₃, calm₂.fs, calm₁.fs]) within₃ tally₃
                (ranged.leads _ _ leads) _

/-- `namex` returns what the path leads to, or the cache has no slot for it. -/
theorem Within.namex_runs {cwd : Slot} (within : k.Within L [] room)
    (ranged : k.fs.view.tree.Ranged L.ninodes)
    (whole : ∀ d, k.fs.view.tree.Dir d → (k.fs.view.din d).size.toNat % DIRENTSIZE = 0)
    (idle : ∀ s, (k.icache s).busy = false) (user : 0 < L.users cwd) (path : List UInt8)
    (parent : Bool) :
    Meets (k.namex cwd path parent) (fun _ => True)
      fun halt => halt = .panic .ilockNoType ∨ halt = .panic .igetNoInodes ∧ k.Crowded := by
  unfold Kernel.namex
  split
  · refine (((within.iget ROOTINO).both ((Tally.refl k).iget ROOTDEV ROOTINO)).both
      (iget_runs k ROOTDEV ROOTINO)).mono
      (fun _ good => good)
        (fun _ bad => .inr ⟨bad.2.1, fun s _ free _ => absurd free (bad.2.2 s)⟩) |>.bind ?_
    rintro ⟨s, m⟩ ⟨⟨⟨calm, within'⟩, tally⟩, _⟩
    exact within'.namexLoop_runs ranged within.kept whole idle (congrArg Fs.view calm.fs) tally
      ranged.root parent path []
  · obtain ⟨calm, within'⟩ := within.idup user
    exact within'.namexLoop_runs ranged within.kept whole idle (congrArg Fs.view calm.fs)
      ((Tally.refl k).idup cwd)
      (ranged.live _ (within.held cwd user)) parent path []

end Kernel

end Xv6
