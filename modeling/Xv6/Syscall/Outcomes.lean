/-
**What lookups return, and what failing calls leave.**

`namei_follows` says what a path leads to for a process. The calls on names that return -1 leave the
disk, the inode cache and the log as they were; `open` does so unless it has made a file for which
there is then no file structure or no descriptor.
-/

import Xv6.Kernel.Lookup
import Xv6.Syscall.Runs

namespace Xv6

open Lib Function

/-- No inode is locked, and each is referred to as before, but for the one returned. -/
structure Kernel.HandsOver (k k' : Kernel) (got : Option Slot) : Prop where
  unlocked : ∀ s, (k'.icache s).busy = false
  refs : ∀ s, (k'.icache s).ref = (k.icache s).ref + got.toList.count s

theorem Kernel.Tally.handsOver {k k' : Kernel} {got : Option Slot}
    (tally : Tally k k' got.toList [] 0) (idle : ∀ s, (k.icache s).busy = false) :
    k.HandsOver k' got := by
  refine ⟨fun s => Bool.eq_false_iff.2 fun busy => ?_, tally.ref⟩
  rcases tally.busy s busy with before | none
  · rw [idle] at before
    cases before
  · cases none

namespace System

/-- **A system between calls whose directories are in order**: there are `n` inodes, every reference
is accounted for, directories have whole entries that name allocated inodes, and no inode is
locked. -/
structure Orderly (y : System) (n : Nat) : Prop where
  sound : y.Sound n
  whole : y.names.Whole n
  safe : y.names.Safe
  entries : ∀ d, y.names.tree.Dir d → (y.kernel.fs.view.din d).size.toNat % DIRENTSIZE = 0
  idle : ∀ s, (y.kernel.icache s).busy = false

variable {y : System} {n : Nat} {p : Fin NPROC} {cwd : Slot}

theorem Orderly.ranged (orderly : y.Orderly n) : y.kernel.fs.view.tree.Ranged n := by
  obtain ⟨_, tree⟩ := orderly.whole.tree
  exact tree.toShape.ranged

theorem Orderly.namex (orderly : y.Orderly n) (current : (y.proc p).cwd = some cwd)
    (path : List UInt8) (parent : Bool) :
    Meets (y.kernel.namex cwd path parent) (fun (found, k) => k.fs = y.kernel.fs ∧
        y.kernel.HandsOver k (found.map Prod.fst) ∧
        found.map (fun x => ((k.icache x.1).inum, x.2)) =
          y.names.tree.walk (if path.head? = some 47 then ROOTINO else y.inum cwd) parent path [])
      fun halt => halt = .panic .igetNoInodes ∧ y.kernel.Crowded := by
  have ranged := orderly.ranged
  have lookable := orderly.sound.lookable orderly.whole orderly.safe p cwd current path parent
  have user := users_cwd current
  have walks :=
    (orderly.sound.within.namex ranged user path parent).both
    ((Kernel.Tally.refl _).namex cwd path parent)
  refine .intro (fun (found, k) ok => ?_) fun halt failed => ?_
  · obtain ⟨⟨fs, walked⟩, tally⟩ := walks.of_ok ok
    have slots : Kernel.found [] found = (found.map Prod.fst).toList := by cases found <;> rfl
    rw [slots] at tally
    exact ⟨fs, tally.handsOver orderly.idle, walked.inums⟩
  · refine ((orderly.sound.within.namex_runs ranged orderly.entries orderly.idle user path
      parent).of_error
      failed).resolve_left ?_
    rintro rfl
    exact lookable failed

theorem orderly_blank {img : Mkfs.Img} (made : Mkfs.mkfs [] = .ok img) :
    (boot img.boot).Orderly img.boot.readsb.ninodes.toNat := by
  have image := Mkfs.image_blank made
  obtain ⟨whole, safe⟩ := whole_boot image
  refine ⟨sound_boot image, whole, safe, fun d dir => ?_, fun s => ?_⟩
  · obtain ⟨img', made', ⟨one, _⟩, _⟩ := Mkfs.blank_layout
    cases made.symm.trans made'
    rw [show d = ROOTINO from Mkfs.only_blank made dir.live]
    show (img.boot.view.din ROOTINO).size.toNat % DIRENTSIZE = 0
    rw [one]
    decide
  · by_cases here : s = rootSlot
    · rw [here, icache_boot]
    · show (((Kernel.boot img.boot).setInode rootSlot _).icache s).busy = false
      rw [Kernel.icache_setInode_of_ne here]
      rfl

/-- **A path is resolved component by component.** -/
theorem namei_follows (orderly : y.Orderly n) (current : (y.proc p).cwd = some cwd)
    (path : List UInt8) :
    Meets (y.kernel.namei cwd path)
      (fun (found, k) => k.fs = y.kernel.fs ∧ y.kernel.HandsOver k found ∧
        found.map (fun s => (k.icache s).inum) =
          y.names.tree.follow (if path.head? = some 47 then ROOTINO else y.inum cwd)
            (components path))
      (fun halt => halt = .panic .igetNoInodes ∧ y.kernel.Crowded) ∧
    Meets (y.kernel.nameiparent cwd path)
      (fun (found, k) => k.fs = y.kernel.fs ∧ y.kernel.HandsOver k (found.map Prod.fst) ∧
        found.map (fun x => ((k.icache x.1).inum, x.2)) =
          y.names.tree.parentOf (if path.head? = some 47 then ROOTINO else y.inum cwd)
            (components path))
      fun halt => halt = .panic .igetNoInodes ∧ y.kernel.Crowded := by
  obtain ⟨follows, parents⟩ :=
    y.names.tree.walk_eq (if path.head? = some 47 then ROOTINO else y.inum cwd) path []
  rw [← follows, ← parents]
  refine ⟨(orderly.namex current path false).bind ?_, orderly.namex current path true⟩
  rintro ⟨found, k⟩ ⟨fs, handsOver, walked⟩
  refine ⟨fs, handsOver, ?_⟩
  rw [← walked]
  cases found <;> rfl

set_option maxRecDepth 100000 in
/-- The first process looks up `/./..` in an image without files, and gets the root directory. -/
theorem namei_follows_root : ∃ img found k, Mkfs.mkfs [] = .ok img ∧
    (boot img.boot).kernel.namei rootSlot [47, 46, 47, 46, 46] = .ok (found, k) ∧ k.fs = img.boot ∧
    (boot img.boot).kernel.HandsOver k found ∧
    found.map (fun s => (k.icache s).inum) = some ROOTINO := by
  obtain ⟨img, made, ends⟩ := exists_of_endsIn (x := Mkfs.mkfs []) (P := fun img =>
    endsIn ((boot img.boot).kernel.namei rootSlot [47, 46, 47, 46, 46]) fun x =>
      decide (x.1.map (fun s => (x.2.icache s).inum) = some ROOTINO)) (by decide +kernel)
  obtain ⟨⟨found, k⟩, done, root⟩ := exists_of_endsIn ends
  obtain ⟨fs, handsOver, _⟩ :=
    (namei_follows (orderly_blank made) (p := initproc) rfl [47, 46, 47, 46, 46]).1.of_ok done
  exact ⟨img, found, k, made, done, fs, handsOver, of_decide_eq_true root⟩

end System

/-! ### Calls that change nothing -/

/-- A link count is written. -/
def View.setNlink (v : View) (i : Nat) (nlink : Int16) : View := v.setDin i { v.din i with nlink }

theorem View.nlink_setNlink (v : View) (i : Nat) (nlink : Int16) :
    ((v.setNlink i nlink).din i).nlink = nlink := by
  unfold setNlink
  rw [din_setDin_self]

theorem View.setNlink_undo (v : View) (i : Nat) (nlink : Int16) :
    (v.setNlink i nlink).setNlink i (v.din i).nlink = v := by
  refine View.ext rfl rfl ?_ rfl
  show update (v.setNlink i nlink).din i { (v.setNlink i nlink).din i with nlink := _ } = v.din
  unfold setNlink
  rw [din_setDin_self]
  exact (update_idem ..).trans (update_eq_self ..)

/-- An inode has one more link. -/
def View.raised (v : View) (i : Nat) : View := v.setNlink i ((v.din i).nlink + 1)

namespace Kernel

/-- **The disk, the inode cache and the log are as before.** -/
structure Unchanged (k k' : Kernel) : Prop where
  inodes : k'.fs.view.din = k.fs.view.din
  bitmap : k'.fs.view.bit = k.fs.view.bit
  contents : ∀ i, k.fs.view.Live i → k'.fs.view.contents i = k.fs.view.contents i
  refs : ∀ s, (k'.icache s).ref = (k.icache s).ref
  locks : ∀ s, (k'.icache s).busy = (k.icache s).busy
  outstanding : k'.fs.log.outstanding = k.fs.log.outstanding

/-- **Within a call that started at `k₀`**: the disk spells `v`, and the call has the references
`refs`, the locks `locks` and `ops` operations. -/
structure Still (k₀ : Kernel) (v : View) (L : Ledger) (k : Kernel) (refs : List Ref)
    (locks : List Slot) (ops : Int) : Prop where
  view : k.fs.view = v
  within : k.Within L refs 0
  tally : Tally k₀ k (refs.map Ref.slot) locks ops

variable {k k₀ : Kernel} {v : View} {L : Ledger} {refs keep : List Ref} {locks : List Slot}
    {ops : Int} {r : Ref} {cwd : Slot}

theorem Still.refl (within : k.Within L [] 0) : Still k k.fs.view L k [] [] 0 :=
  ⟨rfl, within, .refl k⟩

theorem Still.beginOp (still : Still k₀ v L k refs locks ops) :
    Meets k.beginOp (fun k' => Still k₀ v L k' refs locks (ops + 1)) fun _ => True := by
  refine (still.within.beginOp.both still.tally.beginOp).imp ?_
  rintro k' ⟨⟨within, view⟩, tally⟩
  exact ⟨view.trans still.view, within, tally⟩

theorem Still.endOp (still : Still k₀ k₀.fs.view L k [] [] (0 + 1))
    (idle : ∀ s, (k₀.icache s).busy = false) :
    Meets k.endOp (fun k' => k₀.Unchanged k') fun _ => True := by
  refine (still.within.endOp_agrees.both still.tally.endOp).imp ?_
  rintro k' ⟨⟨_, agrees⟩, tally⟩
  have released : k₀.HandsOver k' none := Tally.handsOver tally idle
  have wellFormed := still.within.coherent.wellFormed
  have inside := still.within.apart.inside
  rw [still.view] at agrees wellFormed inside
  exact ⟨agrees.din, agrees.bit, fun i live => agrees.contents inside wellFormed live,
    fun s => (released.refs s).trans (Int.add_zero _),
    fun s => (released.unlocked s).trans (idle s).symm, tally.ops.trans (Int.add_zero _)⟩

theorem Still.ilock (still : Still k₀ v L k (r :: refs) locks ops) (inside : r.inum < L.ninodes) :
    Meets (k.ilock r.slot)
      (fun k' => Still k₀ v L k' (r.load :: refs) (r.slot :: locks) ops) fun _ => True := by
  refine ((still.within.ilock inside).both (still.tally.ilock r.slot)).imp ?_
  rintro k' ⟨⟨calm, within⟩, tally⟩
  exact ⟨by rw [calm.fs, still.view], within, tally⟩

theorem Still.iunlock (still : Still k₀ v L k refs (r.slot :: locks) ops) :
    Meets (k.iunlock r.slot) (fun k' => Still k₀ v L k' refs locks ops) fun _ => True := by
  refine ((still.within.iunlock r.slot).both still.tally.iunlock).imp ?_
  rintro k' ⟨⟨calm, within⟩, tally⟩
  exact ⟨by rw [calm.fs, still.view], within, tally⟩

theorem Still.iput (still : Still k₀ v L k (r :: refs) locks ops) (kept : Kept v L keep)
    (fewer : keep ⊆ refs) :
    Meets (k.iput r.slot) (fun k' => Still k₀ v L k' refs locks ops) fun _ => True := by
  have anchors := (still.within.anchors_of_kept (still.view ▸ kept) fun _ member =>
    List.mem_cons_of_mem _ (fewer member)).mono (List.map_subset _ fewer)
  have put : Meets (k.iput r.slot) (fun k' => k.Calm k' ∧ k'.Within L refs 0) fun _ => True :=
    still.within.iput_shared anchors
  refine (put.both still.tally.iput).imp ?_
  rintro k' ⟨⟨calm, within⟩, tally⟩
  exact ⟨by rw [calm.fs, still.view], within, tally⟩

theorem Still.iunlockput (still : Still k₀ v L k (r :: refs) (r.slot :: locks) ops)
    (kept : Kept v L keep) (fewer : keep ⊆ refs) :
    Meets (k.iunlockput r.slot) (fun k' => Still k₀ v L k' refs locks ops) fun _ => True :=
  still.iunlock.bind fun _ still' => still'.iput kept fewer

theorem Still.swap {r' : Ref} (still : Still k₀ v L k (r :: r' :: refs) locks ops) :
    Still k₀ v L k (r' :: r :: refs) locks ops :=
  ⟨still.view, still.within.swap, { still.tally with
    ref :=
      fun s =>
      (still.tally.ref s).trans
      (congrArg _ (congrArg _ ((List.Perm.swap r'.slot r.slot _).count_eq s))) }⟩

theorem Still.namex (still : Still k₀ v L k refs locks ops) (ranged : v.tree.Ranged L.ninodes)
    (user : 0 < L.users cwd) (path : List UInt8) (parent : Bool) :
    Meets (k.namex cwd path parent) (fun (found, k') =>
      match found with
      | none =>
        v.tree.walk (if path.head? = some 47 then ROOTINO else L.num cwd) parent path [] = none ∧
          Still k₀ v L k' refs locks ops
      | some (s, name) =>
        ∃ i, v.tree.walk (if path.head? = some 47 then ROOTINO else L.num cwd) parent path [] =
          some (i, name) ∧ i < L.ninodes ∧ Still k₀ v L k' (⟨s, i, false⟩ :: refs) locks ops)
          fun _ => True := by
  obtain ⟨rfl, within, tally⟩ := still
  refine ((within.namex ranged user path parent).both (tally.namex cwd path parent)).imp ?_
  rintro ⟨found, k'⟩ ⟨⟨fs, walked⟩, tally'⟩
  have view : k'.fs.view = k.fs.view := congrArg Fs.view fs
  cases goal :
    k.fs.view.tree.walk (if path.head? = some 47 then ROOTINO else L.num cwd) parent path [] with
  | none =>
    rw [goal] at walked
    cases found with
    | none => exact ⟨rfl, view, walked, tally'⟩
    | some x => exact walked.elim
  | some x =>
    rw [goal] at walked
    cases found with
    | none => exact walked.elim
    | some found =>
      obtain ⟨i, name⟩ := x
      obtain ⟨rfl, within'⟩ := walked
      refine ⟨i, rfl, ?_, view, within', tally'⟩
      refine Tree.walk_invariant (P := (· < L.ninodes))
        (fun _ _ _ leads => ranged.leads _ _ leads) ?_ goal
      split
      · exact ranged.root
      · exact ranged.live _ (within.held cwd user)

theorem Still.dirlookup (still : Still k₀ v L k (r :: refs) locks ops) (loaded : r.loaded = true)
    (dir : v.tree.Dir r.inum) (name : List UInt8) :
    Meets (k.dirlookup r.slot name) (fun (found, k') =>
      match found with
      | none => findIn name (v.tree.ents r.inum) = none ∧ Still k₀ v L k' (r :: refs) locks ops
      | some (s, _) => ∃ de q, findIn name (v.tree.ents r.inum) = some (de, q) ∧
          Still k₀ v L k' (⟨s, de.inum.toNat, false⟩ :: r :: refs) locks ops) fun _ => True := by
  obtain ⟨rfl, within, tally⟩ := still
  refine ((within.dirlookup List.mem_cons_self loaded dir name).both
    (tally.dirlookup r.slot name)).imp ?_
  rintro ⟨found, k'⟩ ⟨⟨calm, looked⟩, tally'⟩
  have view : k'.fs.view = k.fs.view := congrArg Fs.view calm.fs
  cases entry : findIn name (k.fs.view.tree.ents r.inum) with
  | none =>
    rw [entry] at looked
    cases found with
    | none => exact ⟨rfl, view, looked, tally'⟩
    | some x => exact looked.elim
  | some x =>
    rw [entry] at looked
    cases found with
    | none => exact looked.elim
    | some found => exact ⟨x.1, x.2, rfl, view, looked.2, tally'⟩

theorem Still.dirlink (still : Still k₀ v L k (r :: refs) locks ops) (loaded : r.loaded = true)
    (dir : v.tree.Dir r.inum) (kept : Kept v L keep) (fewer : keep ⊆ r :: refs) (name : List UInt8)
    (inum : Nat) :
    Meets (k.dirlink r.slot name inum)
      (fun (res, k') => res = 0 ∨ res = -1 ∧ Still k₀ v L k' (r :: refs) locks ops)
      fun _ => True := by
  unfold Kernel.dirlink
  refine (still.dirlookup loaded dir name).bind ?_
  rintro ⟨found, k₁⟩ looked
  cases found with
  | some found =>
    obtain ⟨_, _, _, still₁⟩ := looked
    exact (still₁.iput kept fewer).bind fun k₂ still₂ => .inr ⟨rfl, still₂⟩
  | none =>
    refine (Meets.any _).bind fun _ _ => (Meets.any _).bind fun written _ => ?_
    show Meets (if written.1 ≠ _ then _ else _) _ _
    split
    · trivial
    · exact .inl rfl

theorem Still.iupdate (still : Still k₀ v L k refs locks ops) (member : r ∈ refs)
    (loaded : r.loaded = true) (nlink : Int16) :
    Meets (k.iupdate r.slot { (k.icache r.slot).din with nlink })
      (fun k' => Still k₀ (v.setNlink r.inum nlink) L k' refs locks ops ∧
        (v.setNlink r.inum nlink).tree = v.tree.setNlink r.inum nlink) fun _ => True := by
  obtain ⟨rfl, within, tally⟩ := still
  have number := (within.points r member).1
  have writes :=
    within.coherent.iupdate_meets (within.used member) ((within.points r member).2 loaded)
    (show { (k.icache r.slot).din with nlink } = { (k.icache r.slot).din with nlink } from rfl)
  refine .intro (fun k' ok => ?_) fun _ _ => trivial
  obtain ⟨_, view, _⟩ := writes.of_ok ok
  rw [number, ← within.din member loaded] at view
  obtain ⟨within', tree⟩ := (within.iupdate member loaded rfl).of_ok ok
  exact ⟨⟨view, within', (tally.iupdate _ _).of_ok ok⟩, (congrArg View.tree view).symm.trans tree⟩

/-! ### `link` -/

section Calls

variable (idle : ∀ s, (k₀.icache s).busy = false)

include idle

theorem Still.linkBad (still : Still k₀ (k₀.fs.view.raised r.inum) L k [r] [] (0 + 1))
    (kept : Kept k₀.fs.view L []) (inside : r.inum < L.ninodes) :
    Meets (k.linkBad r.slot) (fun (_, k') => k₀.Unchanged k') fun _ => True := by
  unfold Kernel.linkBad
  refine (still.ilock inside).bind fun k₁ still₁ => ?_
  have nlink : (k₁.icache r.slot).din.nlink = (k₀.fs.view.din r.inum).nlink + 1 := by
    have din := still₁.within.din (r := r.load) List.mem_cons_self rfl
    rw [still₁.view] at din
    exact (congrArg Dinode.nlink din).symm.trans (View.nlink_setNlink ..)
  rw [nlink, Int16.add_sub_cancel]
  refine (still₁.iupdate (r := r.load) List.mem_cons_self rfl _).bind fun k₂ ⟨still₂, _⟩ => ?_
  rw [show r.load.inum = r.inum from rfl, View.raised, View.setNlink_undo] at still₂
  refine (still₂.iunlockput kept (List.nil_subset _)).bind fun k₃ still₃ => ?_
  exact (still₃.endOp idle).bind fun k₄ unchanged => unchanged

theorem Still.linkEntry (still : Still k₀ (k₀.fs.view.raised r.inum) L k [r] [] (0 + 1))
    (kept : Kept k₀.fs.view L []) (inside : r.inum < L.ninodes) (user : 0 < L.users cwd)
    (ranged : (k₀.fs.view.raised r.inum).tree.Ranged L.ninodes) (new : List UInt8) :
    Meets (k.linkEntry cwd r.slot new)
      (fun (res, k') => res = -1 → k₀.Unchanged k') fun _ => True := by
  have held : Kept (k₀.fs.view.raised r.inum) L [r] := still.view ▸ still.within.kept
  have bad : ∀ {m : Kernel}, Still k₀ (k₀.fs.view.raised r.inum) L m [r] [] (0 + 1) →
      Meets (m.linkBad r.slot) (fun (res, k') => res = -1 → k₀.Unchanged k') fun _ => True :=
      fun still =>
    (still.linkBad idle kept inside).mono (fun _ unchanged _ => unchanged) fun _ _ => trivial
  unfold Kernel.linkEntry Kernel.nameiparent
  refine (still.namex ranged user new true).bind ?_
  rintro ⟨found, k₁⟩ looked
  cases found with
  | none => exact bad looked.2
  | some found =>
    obtain ⟨d, walked, low, still₁⟩ := looked
    have dir := Tree.resolveParent_dir walked
    refine (still₁.ilock low).bind fun k₂ still₂ => ?_
    have linked : Meets (if (k₂.icache found.1).dev ≠ (k₂.icache r.slot).dev then .ok (-1, k₂)
        else k₂.dirlink found.1 found.2 (k₂.icache r.slot).inum)
        (fun (res, k') => res = 0 ∨ res = -1 ∧
          Still k₀ (k₀.fs.view.raised r.inum) L k' [Ref.load ⟨found.1, d, false⟩, r] [found.1]
          (0 + 1)) fun _ => True := by
      split
      · exact .inr ⟨rfl, still₂⟩
      · exact still₂.dirlink rfl dir held (List.subset_cons_self _ _) found.2 _
    refine linked.ite_bind ?_
    rintro ⟨res, k₃⟩ (rfl | ⟨rfl, still₃⟩)
    · show Meets (if (0 : Int) < 0 then _ else _) _ _
      rw [if_neg (by decide)]
      refine (Meets.any _).bind fun _ _ => (Meets.any _).bind fun _ _ =>
        (Meets.any _).bind fun _ _ => ?_
      exact fun absurdity => absurd absurdity (by decide)
    · exact (still₃.iunlockput held (List.Subset.refl _)).bind fun k₄ still₄ => bad still₄

/-- A `sys_link` that fails has changed nothing. -/
theorem Still.sysLink (still : Still k₀ k₀.fs.view L k₀ [] [] 0)
    (ranged : k₀.fs.view.tree.Ranged L.ninodes) (user : 0 < L.users cwd) (old new : List UInt8) :
    Meets (k₀.sysLink cwd old new) (fun (r, k') => r = -1 → k₀.Unchanged k') fun _ => True := by
  have kept := still.within.kept
  unfold Kernel.sysLink Kernel.namei
  refine still.beginOp.bind fun k₁ still₁ => ?_
  rw [bind_assoc]
  refine (still₁.namex ranged user old false).bind ?_
  rintro ⟨found, k₂⟩ looked
  cases found with
  | none => exact (looked.2.endOp idle).bind fun k' unchanged _ => unchanged
  | some found =>
    obtain ⟨i, _, inside, still₂⟩ := looked
    refine (still₂.ilock inside).bind fun k₃ still₃ => ?_
    split
    · refine (still₃.iunlockput kept (List.nil_subset _)).bind fun k₄ still₄ => ?_
      exact (still₄.endOp idle).bind fun k' unchanged _ => unchanged
    · have din := still₃.within.din (r := Ref.load ⟨found.1, i, false⟩) List.mem_cons_self rfl
      rw [still₃.view] at din
      refine (still₃.iupdate (r := Ref.load ⟨found.1, i, false⟩) List.mem_cons_self rfl _).bind
        fun k₄ ⟨still₄, tree₄⟩ => ?_
      rw [← show k₀.fs.view.din i = (k₃.icache found.1).din from din] at still₄ tree₄
      refine (still₄.iunlock (r := ⟨found.1, i, false⟩)).bind fun k₅ still₅ => ?_
      refine still₅.linkEntry idle kept inside user ?_ new
      show (k₀.fs.view.setNlink i _).tree.Ranged _
      exact tree₄ ▸ ranged.setNlink i _

/-! ### `unlink` -/

theorem Still.unlinkBad (still : Still k₀ k₀.fs.view L k [r] [r.slot] (0 + 1))
    (kept : Kept k₀.fs.view L []) :
    Meets (k.unlinkBad r.slot) (fun (_, k') => k₀.Unchanged k') fun _ => True := by
  unfold Kernel.unlinkBad
  refine (still.iunlockput kept (List.nil_subset _)).bind fun k₁ still₁ => ?_
  exact (still₁.endOp idle).bind fun k₂ unchanged => unchanged

omit idle in
theorem unlinkEntry_succeeds (k : Kernel) (dp ip : Slot) (off : Nat) :
    Meets (k.unlinkEntry dp ip off) (fun (res, _) => res = 0) fun _ => True := by
  unfold Kernel.unlinkEntry
  refine (Meets.any _).bind fun written _ => ?_
  show Meets (if written.1 ≠ _ then _ else _) _ _
  split
  · trivial
  · refine (Meets.any _).ite_bind fun _ _ => ?_
    exact (Meets.any _).bind fun _ _ => (Meets.any _).bind fun _ _ => (Meets.any _).bind fun _ _ =>
      (Meets.any _).bind fun _ _ => rfl

/-- A `sys_unlink` that fails has changed nothing. -/
theorem Still.sysUnlink (still : Still k₀ k₀.fs.view L k₀ [] [] 0)
    (ranged : k₀.fs.view.tree.Ranged L.ninodes) (user : 0 < L.users cwd) (path : List UInt8) :
    Meets (k₀.sysUnlink cwd path) (fun (r, k') => r = -1 → k₀.Unchanged k') fun _ => True := by
  have kept := still.within.kept
  unfold Kernel.sysUnlink Kernel.nameiparent
  refine still.beginOp.bind fun k₁ still₁ => ?_
  refine (still₁.namex ranged user path true).bind ?_
  rintro ⟨found, k₂⟩ looked
  cases found with
  | none => exact (looked.2.endOp idle).bind fun k' unchanged _ => unchanged
  | some found =>
    obtain ⟨d, walked, low, still₂⟩ := looked
    have dir := Tree.resolveParent_dir walked
    have bad : ∀ {m : Kernel}, Still k₀ k₀.fs.view L m [Ref.load ⟨found.1, d, false⟩]
      [found.1] (0 + 1) →
        Meets (m.unlinkBad found.1) (fun (res, k') => res = -1 → k₀.Unchanged k') fun _ => True :=
        fun still =>
      (still.unlinkBad idle kept).mono (fun _ unchanged _ => unchanged) fun _ _ => trivial
    refine (still₂.ilock low).bind fun k₃ still₃ => ?_
    split
    · exact bad still₃
    refine (still₃.dirlookup rfl dir found.2).bind ?_
    rintro ⟨entry, k₄⟩ looked
    cases entry with
    | none => exact bad looked.2
    | some entry =>
      obtain ⟨de, q, named, still₄⟩ := looked
      refine (still₄.ilock (ranged.leads _ _ (Tree.leads_of_found named))).bind fun k₅ still₅ => ?_
      split
      · trivial
      have checks :
          Meets (if (k₅.icache entry.1).din.type = T_DIR then k₅.isdirempty entry.1
          else .ok (true, k₅))
            (fun x => x.2 = k₅) fun _ => True := by
        split
        · next isDir =>
          have din :=
            still₅.within.din (r := Ref.load ⟨entry.1, de.inum.toNat, false⟩) List.mem_cons_self rfl
          have empties :=
            still₅.within.isdirempty (r :=
            Ref.load ⟨entry.1, de.inum.toNat, false⟩) List.mem_cons_self rfl
            ((congrArg Dinode.type din).trans isDir)
          exact empties.mono (fun _ good => good.1) fun _ _ => trivial
        · rfl
      refine checks.ite_bind ?_
      rintro ⟨empty, k₆⟩ rfl
      simp only
      split
      · refine (unlinkEntry_succeeds ..).imp ?_
        rintro ⟨_, _⟩ rfl absurdity
        exact absurd absurdity (show (0 : Int) ≠ -1 by decide)
      · refine (still₅.iunlockput kept (List.nil_subset _)).bind fun k₇ still₇ => bad still₇

omit idle in
theorem Still.create (still : Still k₀ k₀.fs.view L k [] [] (0 + 1))
    (ranged : k₀.fs.view.tree.Ranged L.ninodes) (kept : Kept k₀.fs.view L [])
    (user : 0 < L.users cwd) (path : List UInt8) (type major minor : Int16) :
    Meets (k.create cwd path type major minor) (fun (made, k') =>
      match made with
      | none => Still k₀ k₀.fs.view L k' [] [] (0 + 1)
      | some s => (∃ d, k₀.fs.view.tree.AddsName (L.num cwd) path d) ∨
          ∃ i, Still k₀ k₀.fs.view L k' [⟨s, i, true⟩] [s] (0 + 1)) fun _ => True := by
  unfold Kernel.create Kernel.nameiparent
  refine (still.namex ranged user path true).bind ?_
  rintro ⟨found, k₁⟩ looked
  cases found with
  | none => exact looked.2
  | some found =>
    obtain ⟨d, walked, low, still₁⟩ := looked
    have dir := Tree.resolveParent_dir walked
    refine (still₁.ilock low).bind fun k₂ still₂ => ?_
    refine (still₂.dirlookup rfl dir found.2).bind ?_
    rintro ⟨entry, k₃⟩ looked
    cases entry with
    | none => exact (Meets.any _).bind fun _ _ => .inl ⟨d, found.2, walked, looked.1⟩
    | some entry =>
      obtain ⟨de, q, named, still₃⟩ := looked
      refine (still₃.swap.iunlockput kept (List.nil_subset _)).bind fun k₄ still₄ => ?_
      refine (still₄.ilock (ranged.leads _ _ (Tree.leads_of_found named))).bind fun k₅ still₅ => ?_
      split
      · exact .inr ⟨_, still₅⟩
      · exact (still₅.iunlockput kept (List.nil_subset _)).bind fun k₆ still₆ => still₆

theorem Still.sysCreate (still : Still k₀ k₀.fs.view L k₀ [] [] 0)
    (ranged : k₀.fs.view.tree.Ranged L.ninodes) (user : 0 < L.users cwd) (path : List UInt8)
    (type major minor : Int16) :
    Meets (k₀.sysCreate cwd path type major minor)
      (fun (r, k') => r = -1 → k₀.Unchanged k') fun _ => True := by
  unfold Kernel.sysCreate
  refine still.beginOp.bind fun k₁ still₁ => ?_
  refine (still₁.create ranged still.within.kept user path type major minor).bind ?_
  rintro ⟨made, k₂⟩ created
  cases made with
  | none => exact (Still.endOp created idle).bind fun k' unchanged _ => unchanged
  | some s =>
    refine (Meets.any _).bind fun _ _ => (Meets.any _).bind fun _ _ => ?_
    exact fun absurdity => absurd absurdity (by decide)

/-! ### `open` -/

omit idle in
theorem Still.openInode (still : Still k₀ k₀.fs.view L k [] [] (0 + 1))
    (ranged : k₀.fs.view.tree.Ranged L.ninodes) (kept : Kept k₀.fs.view L [])
    (user : 0 < L.users cwd) (path : List UInt8) (omode : BitVec 32) :
    Meets (k.openInode cwd path omode) (fun (found, k') =>
      match found with
      | none => Still k₀ k₀.fs.view L k' [] [] (0 + 1)
      | some s => (omode &&& O_CREATE ≠ 0 ∧ ∃ d, k₀.fs.view.tree.AddsName (L.num cwd) path d) ∨
          ∃ i, Still k₀ k₀.fs.view L k' [⟨s, i, true⟩] [s] (0 + 1)) fun _ => True := by
  unfold Kernel.openInode
  split
  · next creates =>
    refine (still.create ranged kept user path T_FILE 0 0).imp ?_
    rintro ⟨made, k'⟩ created
    cases made with
    | none => exact created
    | some s => exact created.imp (fun adds => ⟨creates, adds⟩) id
  · unfold Kernel.namei
    rw [bind_assoc]
    refine (still.namex ranged user path false).bind ?_
    rintro ⟨found, k₁⟩ looked
    cases found with
    | none => exact looked.2
    | some found =>
      obtain ⟨i, _, inside, still₁⟩ := looked
      refine (still₁.ilock inside).bind fun k₂ still₂ => ?_
      split
      · exact (still₂.iunlockput kept (List.nil_subset _)).bind fun k₃ still₃ => still₃
      · exact .inr ⟨i, still₂⟩

end Calls

end Kernel

namespace System

variable {y : System} {n : Nat} {p : Fin NPROC} {cwd : Slot}

/-- **Nothing is left of a call**: not on the disk, in the inode cache or in the log, no file
reference and nothing of any process. -/
structure Unchanged (y y' : System) : Prop where
  kernel : y.kernel.Unchanged y'.kernel
  files : y'.ftable = y.ftable
  procs : y'.proc = y.proc

section Calls

variable (sound : y.Sound n) (ranged : y.kernel.fs.view.tree.Ranged n)
    (idle : ∀ s, (y.kernel.icache s).busy = false)
  (current : (y.proc p).cwd = some cwd)

include sound ranged idle current

theorem sysChdir_failed (path : List UInt8) :
    Meets (y.sysChdir p cwd path) (fun (r, y') => r = -1 → y.Unchanged y') fun _ => True := by
  have start := Kernel.Still.refl sound.within
  unfold System.sysChdir Kernel.namei
  refine start.beginOp.bind fun k₁ still₁ => ?_
  rw [bind_assoc]
  refine (still₁.namex ranged (users_cwd current) path false).bind ?_
  rintro ⟨found, k₂⟩ looked
  cases found with
  | none => exact (looked.2.endOp idle).bind fun k' unchanged _ => ⟨unchanged, rfl, rfl⟩
  | some found =>
    obtain ⟨i, _, inside, still₂⟩ := looked
    refine (still₂.ilock inside).bind fun k₃ still₃ => ?_
    split
    · refine (still₃.iunlockput sound.within.kept (List.nil_subset _)).bind fun k₄ still₄ => ?_
      exact (still₄.endOp idle).bind fun k' unchanged _ => ⟨unchanged, rfl, rfl⟩
    · refine (Meets.any _).bind fun _ _ => (Meets.any _).bind fun _ _ =>
        (Meets.any _).bind fun _ _ => ?_
      exact fun absurdity => absurd absurdity (by decide)

/-- **A call on names that fails changes nothing.** -/
theorem names_failed_unchanged (old path : List UInt8) (major minor : Int16) :
    Meets (y.kernel.sysLink cwd old path) (fun (r, k) => r = -1 → y.kernel.Unchanged k)
      (fun _ => True) ∧
    Meets (y.kernel.sysUnlink cwd path) (fun (r, k) => r = -1 → y.kernel.Unchanged k)
      (fun _ => True) ∧
    Meets (y.kernel.sysMkdir cwd path) (fun (r, k) => r = -1 → y.kernel.Unchanged k)
      (fun _ => True) ∧
    Meets (y.kernel.sysMknod cwd path major minor) (fun (r, k) => r = -1 → y.kernel.Unchanged k)
      (fun _ => True) ∧
    Meets (y.sysChdir p cwd path) (fun (r, y') => r = -1 → y.Unchanged y') fun _ => True := by
  have start := Kernel.Still.refl sound.within
  have user := users_cwd current
  exact ⟨start.sysLink idle ranged user old path, start.sysUnlink idle ranged user path,
    start.sysCreate idle ranged user path T_DIR 0 0,
    start.sysCreate idle ranged user path T_DEV major minor,
    sysChdir_failed sound ranged idle current path⟩

end Calls

set_option maxRecDepth 100000 in
/-- The first process fails to unlink a name that an image without files does not have. -/
theorem names_failed_unchanged_blank : ∃ img k', Mkfs.mkfs [] = .ok img ∧
    (boot img.boot).kernel.sysUnlink rootSlot [102] = .ok (-1, k') ∧
    (boot img.boot).kernel.Unchanged k' := by
  obtain ⟨img, made, ends⟩ := exists_of_endsIn (x := Mkfs.mkfs []) (P := fun img =>
    endsIn ((boot img.boot).kernel.sysUnlink rootSlot [102]) fun x => decide (x.1 = -1))
    (by decide +kernel)
  obtain ⟨⟨r, k'⟩, done, failed⟩ := exists_of_endsIn ends
  obtain rfl : r = -1 := of_decide_eq_true failed
  have orderly := orderly_blank made
  exact ⟨img, k', made, done, ((names_failed_unchanged (p := initproc) orderly.sound orderly.ranged
    orderly.idle rfl [] [102] 0 0).2.1.of_ok done) rfl⟩

/-! ### A failing `open` -/

/-- There is no file structure left, or the process has no descriptor left. -/
def OutOfFiles (y : System) (p : Fin NPROC) : Prop :=
  (∀ f, (y.ftable f).ref ≠ 0) ∨ ∀ fd, (y.proc p).ofile fd ≠ none

/-- The call makes a file that it cannot open. -/
def Leaves (y : System) (p : Fin NPROC) (cwd : Slot) (path : List UInt8) (omode : BitVec 32) :
    Prop :=
  omode &&& O_CREATE ≠ 0 ∧ (∃ d, y.names.tree.AddsName (y.inum cwd) path d) ∧ y.OutOfFiles p

theorem filealloc_eq_none {y : System} (failed : y.filealloc = none) (f : Fslot) :
    (y.ftable f).ref ≠ 0 := by
  unfold filealloc at failed
  split at failed
  · next none => simpa using List.find?_eq_none.mp none f (List.mem_finRange f)
  · cases failed

theorem fdalloc_eq_none {y : System} {f : Fslot} (failed : y.fdalloc p f = none) (fd : Fin NOFILE) :
    (y.proc p).ofile fd ≠ none := by
  unfold fdalloc at failed
  split at failed
  · next none => simpa using List.find?_eq_none.mp none fd (List.mem_finRange fd)
  · cases failed

theorem fileclose_filealloc {y : System} {f : Fslot} (free : (y.ftable f).ref = 0)
    (plain : (y.ftable f).type = .none) :
    (y.setFile f { y.ftable f with ref := 1 }).fileclose f = .ok y := by
  have back : { y.ftable f with ref := 0, type := .none } = y.ftable f := by
    rw [← free, ← plain]
  unfold System.fileclose setFile
  simp only [update_self, update_idem, plain, back, update_eq_self]
  rfl

theorem openBad_unchanged {k : Kernel} {s : Slot} {i : Nat}
    (idle : ∀ s, (y.kernel.icache s).busy = false) (sound : y.Sound n)
    (still : Kernel.Still y.kernel y.kernel.fs.view ⟨y.users, y.inum, n⟩ k [⟨s, i, true⟩]
    [s] (0 + 1)) :
    Meets (({ y with kernel := k } : System).openBad s)
      (fun (r, y') => r = -1 ∧ y.Unchanged y') fun _ => True := by
  unfold openBad
  refine (still.iunlockput sound.within.kept (List.nil_subset _)).bind fun k₁ still₁ => ?_
  exact (still₁.endOp idle).bind fun k₂ unchanged => ⟨rfl, unchanged, rfl, rfl⟩

section Open

variable {path : List UInt8} {omode : BitVec 32}

theorem sysOpen_failed (sound : y.Sound n) (ranged : y.kernel.fs.view.tree.Ranged n)
    (idle : ∀ s, (y.kernel.icache s).busy = false) (current : (y.proc p).cwd = some cwd) :
    Meets (y.sysOpen p cwd path omode) (fun (r, y') =>
      (¬ y.Leaves p cwd path omode → r = -1 → y.Unchanged y') ∧ (y.OutOfFiles p → r = -1)) fun _ =>
      True := by
  have start := Kernel.Still.refl sound.within
  unfold System.sysOpen
  refine start.beginOp.bind fun k₁ still₁ => ?_
  refine (still₁.openInode ranged sound.within.kept (users_cwd current) path omode).bind ?_
  rintro ⟨found, k₂⟩ opened
  cases found with
  | none =>
    exact (Kernel.Still.endOp opened idle).bind fun k₃ unchanged =>
      ⟨fun _ _ => ⟨unchanged, rfl, rfl⟩, fun _ => rfl⟩
  | some s =>
    -- Without a file the inode was there, or was made by the call.
    have bad : y.OutOfFiles p → Meets (({ y with kernel := k₂ } : System).openBad s) (fun (r, y') =>
        (¬ y.Leaves p cwd path omode → r = -1 → y.Unchanged y') ∧
          (y.OutOfFiles p → r = -1)) fun _ => True := by
      intro out
      rcases opened with ⟨creates, adds⟩ | ⟨i, still₂⟩
      · refine (Meets.any _).bind fun _ _ => (Meets.any _).bind fun _ _ => ?_
        exact ⟨fun not => absurd ⟨creates, adds, out⟩ not, fun _ => rfl⟩
      · refine (openBad_unchanged idle sound still₂).imp ?_
        exact fun _ good => ⟨fun _ _ => good.2, fun _ => good.1⟩
    simp only
    cases file : ({ y with kernel := k₂ } : System).filealloc with
    | none =>
      have full : ∀ f, (y.ftable f).ref ≠ 0 := fun f => filealloc_eq_none file f
      exact bad (.inl full)
    | some x =>
      obtain ⟨f, y₃⟩ := x
      obtain ⟨free, rfl⟩ := filealloc_eq file
      simp only
      cases slot :
        (({ y with kernel := k₂ } : System).setFile f { y.ftable f with ref := 1 }).fdalloc p f with
      | none =>
        rw [fileclose_filealloc free (sound.closed f free), ok_bind]
        have full : ∀ fd, (y.proc p).ofile fd ≠ none := fun fd => fdalloc_eq_none slot fd
        exact bad (.inr full)
      | some z =>
        obtain ⟨fd, y₄⟩ := z
        obtain ⟨unused, rfl⟩ := fdalloc_eq slot
        refine (Meets.any _).bind fun _ _ => (Meets.any _).bind fun _ _ =>
          ⟨fun _ failed => ?_, fun out => ?_⟩
        · exact absurd failed (by omega)
        · exact (out.elim (fun files => files f free) fun fds => fds fd unused).elim

/-- An `open` that fails behind `create` leaves the new file. -/
theorem sysOpen_leaves (sound : y.Sound n) (ranged : y.kernel.fs.view.tree.Ranged n)
    (current : (y.proc p).cwd = some cwd) (room : y.HasRoom (.open path omode))
    (creates : omode &&& O_CREATE ≠ 0) (adds : ∃ d, y.names.tree.AddsName (y.inum cwd) path d) :
    Meets (y.sysOpen p cwd path omode) (fun (_, y') => ¬ y.Unchanged y') fun _ => True := by
  refine (sound.sysOpen ranged current room).imp ?_
  rintro ⟨_, y'⟩ stepped unchanged
  have step := stepped.step
  unfold Names.Step at step
  rw [show y.names.hold (.cwd p) = some (y.inum cwd) from congrArg (Option.map y.inum) current]
    at step
  obtain ⟨c, ⟨r, _, _, made⟩, collected⟩ := step
  rw [if_pos creates] at made
  obtain ⟨d, name, parent, absent⟩ := adds
  unfold Tree.Creates at made
  rw [parent] at made
  simp only [absent] at made
  obtain ⟨i, _, free, _, tree⟩ := made
  rw [if_neg (by decide)] at tree
  have live : y'.names.tree.Live i := by
    rw [collected]
    refine Tree.live_prune.2 ⟨fun unlinked => ?_, ?_⟩
    · have zero := unlinked.1
      rw [tree] at zero
      exact absurd ((update_self ..).symm.trans zero) (by decide)
    · rw [tree]
      exact ne_of_eq_of_ne (update_self ..) (by decide)
  have same : (y'.kernel.fs.view.din i).type = (y.kernel.fs.view.din i).type := by
    rw [unchanged.kernel.inodes]
  exact free fun zero => live (same.trans zero)

/-- **A failing `open` changes nothing, unless it made a file.** -/
theorem open_failed_unchanged_iff (sound : y.Sound n) (ranged : y.kernel.fs.view.tree.Ranged n)
    (idle : ∀ s, (y.kernel.icache s).busy = false) (current : (y.proc p).cwd = some cwd) :
    Meets (y.sysOpen p cwd path omode) (fun (r, y') =>
      (¬ y.Leaves p cwd path omode → r = -1 → y.Unchanged y') ∧
      (y.HasRoom (.open path omode) → y.Leaves p cwd path omode → r = -1 ∧ ¬ y.Unchanged y'))
      fun _ => True := by
  refine .intro (fun (r, y') done => ?_) fun _ _ => trivial
  obtain ⟨stays, fails⟩ := (sysOpen_failed sound ranged idle current).of_ok done
  refine ⟨stays, fun room leaves => ⟨fails leaves.2.2, ?_⟩⟩
  exact (sysOpen_leaves sound ranged current room leaves.1 leaves.2.1).of_ok done

end Open

/-- The first process opens `/` with every descriptor. -/
def fillCalls : List (Fin NPROC × NameOp) := List.replicate NOFILE (initproc, .open [47] O_RDONLY)

theorem sound_fillCalls {img : Mkfs.Img} (made : Mkfs.mkfs [] = .ok img)
    (run : fillCalls.foldlM step (boot img.boot) = .ok y) :
    y.Sound img.boot.readsb.ninodes.toNat ∧ y.names.Tidy img.boot.readsb.ninodes.toNat := by
  have image := Mkfs.image_blank made
  refine run_invariant (fun es m => (∀ e ∈ es, e = (initproc, .open [47] O_RDONLY)) →
    m.Sound img.boot.readsb.ninodes.toNat ∧ m.names.Tidy img.boot.readsb.ninodes.toNat)
    (fun _ => ⟨sound_boot image, tidy_boot image⟩) ?_ _ _ run fun _ => List.eq_of_mem_replicate
  intro es m e t inv taken all
  obtain ⟨sound, tidy⟩ := inv fun e member => all e (List.mem_append_left _ member)
  obtain rfl := all e (List.mem_append_right _ List.mem_cons_self)
  -- Such a call draws no block and adds no entry.
  have room : m.HasRoom (.open [47] O_RDONLY) := by
    intro b member
    rw [show NameOp.draws (.open [47] O_RDONLY) = 0 by decide] at member
    cases member
  obtain ⟨sound', names, _⟩ := (sound.step tidy.tree.sound.toShape.ranged room).of_ok taken
  refine ⟨sound', (tidy.step names).1 ?_⟩
  rintro _ _ _ _ ⟨creates, _⟩
  exact absurd rfl creates

set_option maxRecDepth 100000 in
/-- **With every descriptor in use** the first process opens `/` once more: the call fails, and all
is as before. -/
theorem open_failed_unchanged_iff_full : ∃ img y y', Mkfs.mkfs [] = .ok img ∧
    fillCalls.foldlM step (boot img.boot) = .ok y ∧ y.OutOfFiles initproc ∧
    y.sysOpen initproc rootSlot [47] O_RDONLY = .ok (-1, y') ∧ y.Unchanged y' := by
  obtain ⟨img, made, ends⟩ := exists_of_endsIn (x := Mkfs.mkfs []) (P := fun img =>
    endsIn (fillCalls.foldlM step (boot img.boot)) fun y =>
      endsIn (y.sysOpen initproc rootSlot [47] O_RDONLY) fun x =>
        decide (x.1 = -1 ∧ (∀ s, (y.kernel.icache s).busy = false) ∧
          (y.proc initproc).cwd = some rootSlot ∧ ∀ fd, (y.proc initproc).ofile fd ≠ none))
    (by decide +kernel)
  obtain ⟨y, run, ends⟩ := exists_of_endsIn ends
  obtain ⟨⟨r, y'⟩, done, facts⟩ := exists_of_endsIn ends
  obtain ⟨rfl, idle, current, full⟩ := of_decide_eq_true facts
  obtain ⟨sound, tidy⟩ := sound_fillCalls made run
  have ranged := tidy.tree.sound.toShape.ranged
  refine ⟨img, y, y', made, run, .inr full, done,
    ((open_failed_unchanged_iff sound ranged idle current).of_ok done).1 ?_ rfl⟩
  rintro ⟨creates, _⟩
  exact absurd rfl creates

set_option maxRecDepth 100000 in
/-- **A file is left behind**: without a descriptor `open("f", O_CREATE)` fails, and inode 2 is now
the file. -/
theorem open_failed_leaves_file : ∃ img y y', Mkfs.mkfs [] = .ok img ∧
    fillCalls.foldlM step (boot img.boot) = .ok y ∧
    y.sysOpen initproc rootSlot [102] O_CREATE = .ok (-1, y') ∧ ¬ y.names.tree.Live 2 ∧
    y'.names.tree.Live 2 ∧ y'.names.tree.nlink 2 = 1 := by
  obtain ⟨img, made, ends⟩ := exists_of_endsIn (x := Mkfs.mkfs []) (P := fun img =>
    endsIn (fillCalls.foldlM step (boot img.boot)) fun y =>
      endsIn (y.sysOpen initproc rootSlot [102] O_CREATE) fun x =>
      decide (x.1 = -1 ∧ ¬ y.names.tree.Live 2 ∧ x.2.names.tree.Live 2 ∧
        x.2.names.tree.nlink 2 = 1)) (by decide +kernel)
  obtain ⟨y, run, ends⟩ := exists_of_endsIn ends
  obtain ⟨⟨r, y'⟩, done, facts⟩ := exists_of_endsIn ends
  obtain ⟨rfl, before, after, linked⟩ := of_decide_eq_true facts
  exact ⟨img, y, y', made, run, done, before, after, linked⟩

end System

end Xv6
