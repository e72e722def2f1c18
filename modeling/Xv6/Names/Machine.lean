/-
**The name space with its holders, as a machine.**

`Names` is a tree and, for every current directory and every descriptor, the inode it holds. A call
changes links and holders (`Edits`: what each call is for), and then every inode without a link and
without a holder is free. What the kernel does has to be a step of this machine.
-/

import Xv6.Names.Edit
import Xv6.Syscall.Sysfile

namespace Xv6

open Lib Function

/-- What can hold an inode. -/
inductive Holder
  | cwd (p : Fin NPROC)
  | fd (p : Fin NPROC) (fd : Fin NOFILE)
  deriving DecidableEq

/-- The process that a holder belongs to. -/
def Holder.proc : Holder → Fin NPROC
  | cwd p => p
  | fd p _ => p

/-- The same holder of another process. -/
def Holder.of (q : Fin NPROC) : Holder → Holder
  | cwd _ => cwd q
  | fd _ k => fd q k

@[ext] structure Names where
  tree : Tree
  hold : Holder → Option Nat

/-! ### What the calls do to the tree -/

namespace Tree

/-- A directory without entries behind the first two. -/
def Empty (t : Tree) (d : Nat) : Prop := ∀ p de, 2 ≤ p → (t.ents d)[p]? = some de → de.inum = 0

/-- `create`: the tree behind it, and the inode it returns. There are `n` inodes. -/
def Creates (t : Tree) (n cwd : Nat) (path : List UInt8) (type : Int16) (t' : Tree)
    (r : Option Nat) : Prop :=
  match t.resolveParent cwd path with
  | none => t' = t ∧ r = none
  | some (d, name) =>
    match findIn name (t.ents d) with
    | some (de, _) => t' = t ∧
        r = if type = T_FILE ∧ t.type de.inum.toNat = T_FILE then some de.inum.toNat else none
    | none => ∃ i, (0 < i ∧ i < n) ∧ ¬ t.Live i ∧ r = some i ∧
        t' = if type = T_DIR then t.mkDir d name i else t.mkFile d name i type

/-- `link`. -/
def Links (t : Tree) (cwd : Nat) (old new : List UInt8) (t' : Tree) : Prop :=
  match t.resolve cwd old with
  | none => t' = t
  | some i =>
    if t.Dir i then t' = t
    else
      match t.resolveParent cwd new with
      | none => t' = t
      | some (d, name) =>
        match findIn name (t.ents d) with
        | some _ => t' = t
        | none => t.Live i ∧ t' = t.link d name i

/-- `unlink`. -/
def Unlinks (t : Tree) (cwd : Nat) (path : List UInt8) (t' : Tree) : Prop :=
  match t.resolveParent cwd path with
  | none => t' = t
  | some (d, name) =>
    if namecmp name [46] = 0 ∨ namecmp name [46, 46] = 0 then t' = t
    else
      match findIn name (t.ents d) with
      | none => t' = t
      | some (de, p) =>
        t' = t ∧ t.Dir de.inum.toNat ∧ ¬ t.Empty de.inum.toNat ∨
        t' = t.unlink d p de.inum.toNat ∧ t.Live de.inum.toNat ∧
          (t.Dir de.inum.toNat → t.Empty de.inum.toNat)

end Tree

namespace Names

/-- Somebody holds inode `i`. -/
def Held (a : Names) (i : Nat) : Prop := ∃ h, a.hold h = some i

/-- Process `p` opens inode `r`, unless it or the system is out of files. -/
def Opens (p : Fin NPROC) (r : Option Nat) (hold hold' : Holder → Option Nat) : Prop :=
  hold' = hold ∨ ∃ i fd, r = some i ∧ hold (.fd p fd) = none ∧
    hold' = update hold (.fd p fd) (some i)

/-- **What a call of process `p` is for**: the links and holders behind it. -/
def Edits (n : Nat) (a : Names) (p : Fin NPROC) (cwd : Nat) (b : Names) : NameOp → Prop
  | .link old new => b.hold = a.hold ∧ a.tree.Links cwd old new b.tree
  | .unlink path => b.hold = a.hold ∧ a.tree.Unlinks cwd path b.tree
  | .mkdir path => b.hold = a.hold ∧ ∃ r, a.tree.Creates n cwd path T_DIR b.tree r
  | .mknod path _ _ => b.hold = a.hold ∧ ∃ r, a.tree.Creates n cwd path T_DEV b.tree r
  | .open path omode => ∃ r, Opens p r a.hold b.hold ∧ (∀ i, r = some i → b.tree.Live i) ∧
      if omode &&& O_CREATE ≠ 0 then a.tree.Creates n cwd path T_FILE b.tree r
      else b.tree = a.tree ∧ ∀ i, r = some i → a.tree.resolve cwd path = some i
  | .close fd => b.tree = a.tree ∧
      b.hold = if inside : fd.toNat < NOFILE then update a.hold (.fd p ⟨fd.toNat, inside⟩) none
        else a.hold
  | .chdir path => b.tree = a.tree ∧
      match a.tree.resolve cwd path with
      | none => b.hold = a.hold
      | some i => b.hold = if a.tree.Dir i then update a.hold (.cwd p) (some i) else a.hold
  | .fork np => b.tree = a.tree ∧
      (b.hold = a.hold ∨ (∀ h, h.proc = np → a.hold h = none) ∧
        b.hold = fun h => if h.proc = np then a.hold (h.of p) else a.hold h)
  | .exit => b.tree = a.tree ∧ b.hold = fun h => if h.proc = p then none else a.hold h

/-- The inodes that nothing refers to are free. -/
noncomputable def collect (a : Names) : Names :=
  { a with tree := a.tree.prune {i | a.tree.nlink i = 0 ∧ ¬ a.Held i} }

/-- **One step**: the call by process `p`, if it has a current directory. -/
def Step (n : Nat) (a : Names) (e : Fin NPROC × NameOp) (b : Names) : Prop :=
  match a.hold (.cwd e.1) with
  | none => b = a
  | some cwd => ∃ c, a.Edits n e.1 cwd c e.2 ∧ b = c.collect

end Names

/-! ### The three ways to add a link -/

namespace Tree

/-- The last element of the path is no entry yet of its directory, which is `d`. -/
def AddsName (t : Tree) (cwd : Nat) (path : List UInt8) (d : Nat) : Prop :=
  ∃ name, t.resolveParent cwd path = some (d, name) ∧ findIn name (t.ents d) = none

/-- The call adds an entry to directory `d`, and counts one more link of `r`, which is there
already. -/
def Adds (t : Tree) (cwd : Nat) (d : Nat) (r : Option Nat) : NameOp → Prop
  | .mkdir path => r = some d ∧ t.AddsName cwd path d
  | .mknod path _ _ => r = none ∧ t.AddsName cwd path d
  | .open path omode => omode &&& O_CREATE ≠ 0 ∧ r = none ∧ t.AddsName cwd path d
  | .link old new => ∃ i, t.resolve cwd old = some i ∧ ¬ t.Dir i ∧ r = some i ∧ t.AddsName cwd new d
  | _ => False

/-- A link from directory `d` to `i` was added, and the count of `r` raised for it. -/
inductive Attach (t : Tree) (n d i : Nat) : Option Nat → Tree → Prop
  | file {name : List UInt8} {type : Int16} (dir : t.Dir d) (number : 0 < i ∧ i < n)
    (free : ¬ t.Live i)
      (allocated : type ≠ 0) (file : type ≠ T_DIR) (absent : findIn name (t.ents d) = none) :
      Attach t n d i none (t.mkFile d name i type)
  | dir {name : List UInt8} (dir : t.Dir d) (number : 0 < i ∧ i < n) (free : ¬ t.Live i)
      (absent : findIn name (t.ents d) = none) : Attach t n d i (some d) (t.mkDir d name i)
  | link {name : List UInt8} (dir : t.Dir d) (live : t.Live i) (plain : ¬ t.Dir i)
      (absent : findIn name (t.ents d) = none) : Attach t n d i (some i) (t.link d name i)

/-- What a call can do to the tree: nothing, add a link, or remove one. -/
inductive Change (t : Tree) (n cwd : Nat) (op : NameOp) : Tree → Prop
  | same (none' : ∀ d r, ¬ t.Adds cwd d r op) : Change t n cwd op t
  | attach {d i : Nat} {r : Option Nat} {t' : Tree} (attach : t.Attach n d i r t')
    (adds : t.Adds cwd d r op)
      (only : ∀ d' r', t.Adds cwd d' r' op → d' = d ∧ r' = r) : Change t n cwd op t'
  | unlink {d p : Nat} {de : Dirent} {path : List UInt8} (which : op = .unlink path) (dir : t.Dir d)
      (at' : (t.ents d)[p]? = some de) (proper : de.proper = true)
      (empty : t.Dir de.inum.toNat → t.Empty de.inum.toNat) :
      Change t n cwd op (t.unlink d p de.inum.toNat)

section Change

variable {t t' : Tree} {n cwd d i : Nat} {r : Option Nat} {op : NameOp} {path name : List UInt8}
  {type : Int16} {leak : Nat → Nat}

/-- The lookup of a parent ends in a directory. -/
theorem walk_dir {parent : Bool} {name' : List UInt8}
    (found : t.walk i parent path name = some (d, name')) (isParent : parent = true) : t.Dir d := by
  induction path using (measure List.length).wf.induction generalizing i name with
  | _ path ih =>
    rw [walk] at found
    split at found
    · rw [if_pos isParent] at found
      cases found
    · next elem rest next' =>
      split at found
      · cases found
      · next dir =>
        split at found
        · cases found
          exact not_not.mp dir
        · split at found
          · cases found
          · exact ih rest (Kernel.length_skipelem next') found

theorem resolveParent_dir (found : t.resolveParent cwd path = some (d, name)) : t.Dir d :=
  walk_dir found rfl

theorem AddsName.eq {d' : Nat} (first : t.AddsName cwd path d) (second : t.AddsName cwd path d') :
    d' = d := by
  obtain ⟨name, found, _⟩ := first
  obtain ⟨name', found', _⟩ := second
  rw [found] at found'
  exact (congrArg Prod.fst (Option.some.inj found')).symm

/-- `create` finds the file or adds it with a link from its directory. -/
theorem Creates.cases (creates : t.Creates n cwd path type t' r) (allocated : type ≠ 0) :
    t' = t ∧ (∀ d, ¬ t.AddsName cwd path d) ∨
    ∃ d i, t.AddsName cwd path d ∧ t.Attach n d i (if type = T_DIR then some d else none) t' := by
  unfold Creates at creates
  split at creates
  · next none' =>
    refine .inl ⟨creates.1, ?_⟩
    rintro d ⟨name, found, _⟩
    rw [none'] at found
    cases found
  · next d name found =>
    split at creates
    · next de p known =>
      refine .inl ⟨creates.1, ?_⟩
      rintro d' ⟨name', found', absent⟩
      rw [found] at found'
      cases found'
      rw [known] at absent
      cases absent
    · next absent =>
      obtain ⟨i, number, free, _, rfl⟩ := creates
      refine .inr ⟨d, i, ⟨name, found, absent⟩, ?_⟩
      have dir := resolveParent_dir found
      by_cases isDir : type = T_DIR
      · rw [if_pos isDir, if_pos isDir]
        exact .dir dir number free absent
      · rw [if_neg isDir, if_neg isDir]
        exact .file dir number free allocated isDir absent

theorem Links.cases {old new : List UInt8} (links : t.Links cwd old new t') :
    t.Change n cwd (.link old new) t' := by
  unfold Links at links
  split at links
  · next none' =>
    subst links
    refine .same ?_
    rintro d r ⟨i, found, _⟩
    rw [none'] at found
    cases found
  · next i found =>
    split at links
    · next dir =>
      subst links
      refine .same ?_
      rintro d r ⟨j, found', plain, _⟩
      rw [found] at found'
      cases found'
      exact plain dir
    · next plain =>
      split at links
      · next none' =>
        subst links
        refine .same ?_
        rintro d r ⟨j, _, _, _, name, parent, _⟩
        rw [none'] at parent
        cases parent
      · next d name parent =>
        split at links
        · next known =>
          subst links
          refine .same ?_
          rintro d' r ⟨j, _, _, _, name', parent', absent⟩
          rw [parent] at parent'
          cases parent'
          rw [known] at absent
          cases absent
        · next absent =>
          obtain ⟨live, rfl⟩ := links
          refine .attach (.link (resolveParent_dir parent) live plain absent)
            ⟨i, found, plain, rfl, name, parent, absent⟩ ?_
          rintro d' r' ⟨j, found', _, rfl, adds⟩
          rw [found] at found'
          cases found'
          exact ⟨AddsName.eq ⟨name, parent, absent⟩ adds, rfl⟩

theorem proper_of_found {de : Dirent} {p : Nat} {l : List Dirent}
    (others : ¬ (namecmp name [46] = 0 ∨ namecmp name [46, 46] = 0))
    (found : findIn name l = some (de, p)) : de.proper = true := by
  obtain ⟨_, accepted⟩ := findIn_eq_some found
  have used : de.inum ≠ 0 ∧ namecmp name de.name = 0 := by
    simpa [Kernel.matchesName] using accepted
  have same := namecmp_eq_zero.mp used.2
  refine Dirent.proper_iff.mpr ⟨used.1, fun dot => others (.inl ?_), fun dotdot => others (.inr ?_)⟩
  · exact namecmp_eq_zero.mpr (same.trans (namecmp_eq_zero.mp dot).symm)
  · exact namecmp_eq_zero.mpr (same.trans (namecmp_eq_zero.mp dotdot).symm)

/-- `unlink` does nothing or removes one link. -/
theorem Unlinks.cases (unlinks : t.Unlinks cwd path t') : t.Change n cwd (.unlink path) t' := by
  have none' : ∀ d r, ¬ t.Adds cwd d r (.unlink path) := fun _ _ => id
  unfold Unlinks at unlinks
  split at unlinks
  · subst unlinks
    exact .same none'
  · next d name found =>
    split at unlinks
    · subst unlinks
      exact .same none'
    · next others =>
      split at unlinks
      · subst unlinks
        exact .same none'
      · next de p entry =>
        rcases unlinks with ⟨rfl, _⟩ | ⟨rfl, _, empty⟩
        · exact .same none'
        · exact .unlink rfl (resolveParent_dir found) (findIn_eq_some entry).1
            (proper_of_found others entry) empty

theorem Creates.change (creates : t.Creates n cwd path type t' r) (allocated : type ≠ 0)
    (adds : ∀ d r, t.Adds cwd d r op ↔ r = (if type = T_DIR then some d else none) ∧
    t.AddsName cwd path d) : t.Change n cwd op t' := by
  rcases creates.cases allocated with ⟨rfl, none'⟩ | ⟨d, i, name, attach⟩
  · exact .same fun d r added => none' d ((adds d r).mp added).2
  · refine .attach attach ((adds _ _).mpr ⟨rfl, name⟩) fun d' r' added => ?_
    obtain ⟨rfl, name'⟩ := (adds d' r').mp added
    obtain rfl := AddsName.eq name name'
    exact ⟨rfl, rfl⟩

end Change

section Attach

variable {t t' : Tree} {n d i j : Nat} {r : Option Nat} {leak : Nat → Nat}

theorem Attach.dir' (attach : t.Attach n d i r t') : t.Dir d := by
  cases attach <;> assumption

theorem Attach.not_dir (attach : t.Attach n d i r t') : ¬ t.Dir i := by
  cases attach with
  | file _ _ free => exact fun dir => free dir.live
  | dir _ _ free => exact fun dir => free dir.live
  | link _ _ plain => exact plain

theorem Attach.ne (attach : t.Attach n d i r t') : d ≠ i := by
  rintro rfl
  exact attach.not_dir attach.dir'

theorem Attach.number (attach : t.Attach n d i r t') (shape : t.Shape n) : 0 < i ∧ i < n := by
  cases attach with
  | file _ number => exact number
  | dir _ number => exact number
  | link _ live => exact shape.bounded i live

theorem Attach.live_iff (attach : t.Attach n d i r t') (j : Nat) :
    t'.Live j ↔ t.Live j ∨ j = i := by
  cases attach with
  | file _ _ _ allocated => exact live_add allocated [] j
  | dir => exact live_add (by decide) (Dirent.dots i d) j
  | link _ live =>
    refine (or_iff_left_of_imp ?_).symm
    rintro rfl
    exact live

theorem Attach.dir_iff (attach : t.Attach n d i r t') (other : j ≠ i) : t'.Dir j ↔ t.Dir j := by
  have keeps : t'.type j = t.type j := by
    cases attach with
    | file => exact update_of_ne other ..
    | dir => exact update_of_ne other ..
    | link => rfl
  unfold Dir
  rw [keeps]

/-- A new link raises the count of its target, and of the parent of a directory. -/
theorem Attach.nlink (attach : t.Attach n d i r t') (shape : t.Shape n) (j : Nat) :
    t'.nlink j = if j = i ∨ r = some j then t.nlink j + 1 else t.nlink j := by
  have differs := attach.ne
  cases attach with
  | file _ _ free =>
    have zero := shape.dead i free
    show update t.nlink i 1 j = _
    rw [update_apply]
    by_cases same : j = i
    · rw [if_pos same, if_pos (.inl same), same, zero]
      rfl
    · rw [if_neg same, if_neg (by rintro (here | here); exact same here; cases here)]
  | dir _ _ free =>
    have zero := shape.dead i free
    show update (update t.nlink i 1) d (t.nlink d + 1) j = _
    rw [update_apply, update_apply]
    by_cases parent' : j = d
    · rw [if_pos parent', if_pos (.inr (by rw [parent'])), parent']
    · rw [if_neg parent']
      by_cases same : j = i
      · rw [if_pos same, if_pos (.inl same), same, zero]
        rfl
      · rw [if_neg same, if_neg]
        rintro (here | here)
        · exact same here
        · exact parent' (Option.some.inj here).symm
  | link =>
    show update t.nlink i (t.nlink i + 1) j = _
    rw [update_apply]
    by_cases same : j = i
    · rw [if_pos same, if_pos (.inl same), same]
    · rw [if_neg same, if_neg]
      rintro (here | here)
      · exact same here
      · exact same (Option.some.inj here).symm

theorem Attach.ents (attach : t.Attach n d i r t') (old : j ≠ i ∨ t.Live j) (other : j ≠ d) :
    t'.ents j = t.ents j := by
  have differs : ¬ t.Live i → j ≠ i :=
    fun free same => old.elim (fun ne => ne same) fun live => free (same ▸ live)
  cases attach with
  | file _ _ free =>
    show update (update t.ents i []) d _ j = _
    rw [update_of_ne other, update_of_ne (differs free)]
  | dir _ _ free =>
    show update (update t.ents i _) d _ j = _
    rw [update_of_ne other, update_of_ne (differs free)]
  | link =>
    show update t.ents d _ j = _
    rw [update_of_ne other]

theorem Attach.sound (attach : t.Attach n d i r t') (sound : t.Sound n leak)
    (below : ∀ j, r = some j → (t.nlink j).toInt < 32767) : t'.Sound n leak := by
  cases attach with
  | file dir number free allocated file absent =>
    exact sound.mkFile dir number free allocated file absent
  | dir dir number free absent => exact sound.mkDir dir number free absent (below d rfl)
  | link dir live plain absent => exact sound.link dir live plain absent (below i rfl)

/-- A new link adds one link to the graph and changes no parent. -/
theorem Attach.placed (attach : t.Attach n d i r t') (shape : t.Shape n) :
    Added t.edge t'.edge d i ∧ ∀ j, t.Dir j → t'.parent j = t.parent j := by
  have differs := attach.ne
  cases attach with
  | @file name type dir number free allocated file absent =>
    have base : (t.add i type []).Shape n :=
      shape.add free number allocated (fun _ => rfl) fun same => absurd same file
    have edges : (t.add i type []).edge = t.edge :=
      edge_add (fun dir' => free dir'.live) shape fun _ => rfl
    have ents : ∀ j, t.Dir j → (t.add i type []).ents j = t.ents j := fun j => ents_add_of_dir free
    have dir' : (t.add i type []).Dir d := (update_of_ne differs ..).trans dir
    obtain ⟨_, added, parents⟩ := base.place dir' number ((ents d dir).symm ▸ absent)
    refine ⟨edges ▸ added, fun j isDir => (parents j).trans ?_⟩
    unfold parent
    rw [ents j isDir]
  | @dir name dir number free absent =>
    have base : (t.add i T_DIR (Dirent.dots i d)).Shape n :=
      shape.add free number (by decide) (fun other => absurd rfl other) fun _ =>
        .new (number.2.trans_le shape.small) (shape.bounded d dir.live) shape.small
    have edges : (t.add i T_DIR (Dirent.dots i d)).edge = t.edge :=
      edge_add (fun dir' => free dir'.live) shape (countP_dots i d)
    have ents : ∀ j, t.Dir j → (t.add i T_DIR (Dirent.dots i d)).ents j = t.ents j :=
      fun j => ents_add_of_dir free
    have dir' : (t.add i T_DIR (Dirent.dots i d)).Dir d := (update_of_ne differs ..).trans dir
    obtain ⟨_, added, parents⟩ :=
      (base.setNlink dir'.live (t.nlink d + 1)).place dir' number ((ents d dir).symm ▸ absent)
    refine ⟨edges ▸ added, fun j isDir => (parents j).trans ?_⟩
    show (t.add i T_DIR (Dirent.dots i d)).parent j = t.parent j
    unfold parent
    rw [ents j isDir]
  | link dir live plain absent =>
    obtain ⟨_, added, parents⟩ := (shape.setNlink live _).place dir (shape.bounded i live) absent
    exact ⟨added, fun j _ => parents j⟩

theorem Attach.added (attach : t.Attach n d i r t') (shape : t.Shape n) :
    Added t.edge t'.edge d i :=
  (attach.placed shape).1

theorem Attach.mem_ents (attach : t.Attach n d i r t') (small : i < 2 ^ 16) {de : Dirent}
    (member : de ∈ t'.ents d) : de ∈ t.ents d ∨ de.inum.toNat = i := by
  have placed : ∀ {l : List Dirent} {name : List UInt8}, de ∈ splice l (emptyIn l)
    [Dirent.link name i] →
      de ∈ l ∨ de.inum.toNat = i := by
    intro l name member
    obtain ⟨p, at'⟩ := List.getElem?_of_mem member
    rw [getElem?_splice (emptyIn_le l)] at at'
    split at at'
    · exact .inl (List.mem_of_getElem? at')
    · split at at'
      · right
        have here := List.mem_of_getElem? at'
        rw [List.mem_singleton.mp here]
        exact Dirent.toNat_link small
      · exact .inl (List.mem_of_getElem? at')
  have differs := attach.ne
  cases attach with
  | file =>
    have member' : de ∈ update (update t.ents i []) d _ d := member
    rw [update_self] at member'
    refine (placed member').imp_left fun old => ?_
    have old' : de ∈ update t.ents i [] d := old
    rwa [update_of_ne differs] at old'
  | dir =>
    have member' : de ∈ update (update t.ents i (Dirent.dots i d)) d _ d := member
    rw [update_self] at member'
    refine (placed member').imp_left fun old => ?_
    have old' : de ∈ update t.ents i (Dirent.dots i d) d := old
    rwa [update_of_ne differs] at old'
  | link =>
    have member' : de ∈ update t.ents d _ d := member
    rw [update_self] at member'
    exact placed member'

theorem Attach.mem_fresh (attach : t.Attach n d i r t') (free : ¬ t.Live i) (small : n ≤ 2 ^ 16)
    (below : d < n) {de : Dirent} (member : de ∈ t'.ents i) :
    de.inum.toNat = i ∨ de.inum.toNat = d := by
  have differs := attach.ne
  cases attach with
  | file =>
    have member' : de ∈ update (update t.ents i []) d _ i := member
    rw [update_of_ne differs.symm, update_self] at member'
    cases member'
  | dir dir number =>
    have member' : de ∈ update (update t.ents i (Dirent.dots i d)) d _ i := member
    rw [update_of_ne differs.symm, update_self] at member'
    rcases List.mem_cons.mp member' with rfl | second
    · exact .inl (Dirent.toNat_link (number.2.trans_le small))
    · right
      rw [List.mem_singleton.mp second]
      exact Dirent.toNat_link (below.trans_le small)
  | link _ live => exact absurd live free

theorem Attach.mem_new (attach : t.Attach n d i r t') (shape : t.Shape n) {de : Dirent}
    (member : de ∈ t'.ents i) : de.inum.toNat = i ∨ de.inum.toNat = d := by
  by_cases live : t.Live i
  · rw [attach.ents (.inr live) attach.ne.symm, shape.plain i attach.not_dir] at member
    cases member
  · exact attach.mem_fresh live shape.small (shape.bounded d attach.dir'.live).2 member

/-! ### What every change keeps -/

variable {cwd : Nat} {op : NameOp}

theorem Change.type (change : t.Change n cwd op t') (live : t.Live j) : t'.type j = t.type j := by
  cases change with
  | same => rfl
  | unlink => rw [type_unlink]
  | attach attach =>
    cases attach with
    | file _ _ free =>
      refine update_of_ne ?_ ..
      rintro rfl
      exact free live
    | dir _ _ free =>
      refine update_of_ne ?_ ..
      rintro rfl
      exact free live
    | link => rfl

theorem Change.live (change : t.Change n cwd op t') (live : t.Live j) : t'.Live j := by
  unfold Live
  rw [change.type live]
  exact live

theorem Change.parent (change : t.Change n cwd op t') (shape : t.Shape n) (dir : t.Dir j) :
    t'.parent j = t.parent j := by
  cases change with
  | same => rfl
  | attach attach => exact (attach.placed shape).2 j dir
  | unlink _ dir' at' proper =>
    have parents := (shape.clear dir' at' proper).2.2 j
    unfold Tree.parent at parents ⊢
    rw [ents_unlink]
    exact parents

/-- Every change of names keeps the counts right, unless one wraps around. -/
theorem Change.sound (change : t.Change n cwd op t') (sound : t.Sound n leak)
    (below : ∀ d j, t.Adds cwd d (some j) op → (t.nlink j).toInt < 32767) : t'.Sound n leak := by
  cases change with
  | same => exact sound
  | attach attach adds =>
    refine attach.sound sound ?_
    rintro j rfl
    exact below _ j adds
  | unlink _ dir at' proper => exact sound.unlink dir at' proper

end Attach

end Tree

namespace Names

variable {a b : Names} {n cwd : Nat} {p : Fin NPROC} {op : NameOp}

theorem Edits.change (edits : a.Edits n p cwd b op) : a.tree.Change n cwd op b.tree := by
  cases op with
  | link old new => exact edits.2.cases
  | unlink path => exact edits.2.cases
  | mkdir path =>
    obtain ⟨_, r, creates⟩ := edits
    exact creates.change (by decide) fun d r => by rw [if_pos rfl]; exact Iff.rfl
  | mknod path major minor =>
    obtain ⟨_, r, creates⟩ := edits
    exact creates.change (by decide) fun d r => by rw [if_neg (by decide)]; exact Iff.rfl
  | «open» path omode =>
    obtain ⟨r, _, _, finds⟩ := edits
    by_cases create : omode &&& O_CREATE ≠ 0
    · rw [if_pos create] at finds
      refine finds.change (by decide) fun d r => ?_
      rw [if_neg (by decide)]
      exact and_iff_right create
    · rw [if_neg create] at finds
      rw [finds.1]
      exact .same fun d r adds => create adds.1
  | close fd =>
    rw [edits.1]
    exact .same fun _ _ => id
  | chdir path =>
    rw [edits.1]
    exact .same fun _ _ => id
  | fork np =>
    rw [edits.1]
    exact .same fun _ _ => id
  | exit =>
    rw [edits.1]
    exact .same fun _ _ => id


/-- What a call can start to hold: what a path leads to, what an entry names, or a new inode. -/
def Found (a : Names) (cwd i : Nat) : Prop :=
  (∃ path, a.tree.resolve cwd path = some i) ∨
  (∃ path d name de q, a.tree.resolveParent cwd path = some (d, name) ∧
    findIn name (a.tree.ents d) = some (de, q) ∧ de.inum.toNat = i) ∨ ¬ a.tree.Live i

theorem Creates.found {t' : Tree} {i : Nat} {path : List UInt8} {type : Int16}
    (creates : a.tree.Creates n cwd path type t' (some i)) : a.Found cwd i := by
  unfold Tree.Creates at creates
  split at creates
  · cases creates.2
  · next d name parent =>
    split at creates
    · next de q entry =>
      have opened := creates.2
      split at opened
      · cases opened
        exact .inr (.inl ⟨path, d, name, de, q, parent, entry, rfl⟩)
      · cases opened
    · obtain ⟨j, _, free, same, _⟩ := creates
      cases same
      exact .inr (.inr free)

/-- **What is held behind a call** was held before, or was found by it and is allocated. -/
theorem Edits.held_cases {i : Nat} (edits : a.Edits n p cwd b op) (held : b.Held i) :
    a.Held i ∨ a.Found cwd i ∧ b.tree.Live i := by
  obtain ⟨h, holds⟩ := held
  have old : b.hold = a.hold → a.Held i := fun same => ⟨h, same ▸ holds⟩
  cases op with
  | link => exact .inl (old edits.1)
  | unlink => exact .inl (old edits.1)
  | mkdir => exact .inl (old edits.1)
  | mknod => exact .inl (old edits.1)
  | «open» path omode =>
    obtain ⟨r, opens, live, finds⟩ := edits
    rcases opens with same | ⟨j, fd, rfl, _, update⟩
    · exact .inl (old same)
    · rw [update, update_apply] at holds
      split at holds
      · cases holds
        refine .inr ⟨?_, live i rfl⟩
        by_cases create : omode &&& O_CREATE ≠ 0
        · rw [if_pos create] at finds
          exact Creates.found finds
        · rw [if_neg create] at finds
          exact .inl ⟨path, finds.2 i rfl⟩
      · exact .inl ⟨h, holds⟩
  | close fd =>
    have update := edits.2
    split at update
    · rw [update, update_apply] at holds
      split at holds
      · cases holds
      · exact .inl ⟨h, holds⟩
    · exact .inl (old update)
  | chdir path =>
    have update := edits.2
    split at update
    · exact .inl (old update)
    · next j found =>
      by_cases dir : a.tree.Dir j
      · rw [if_pos dir] at update
        rw [update, update_apply] at holds
        split at holds
        · cases holds
          refine .inr ⟨.inl ⟨path, found⟩, ?_⟩
          rw [edits.1]
          exact dir.live
        · exact .inl ⟨h, holds⟩
      · rw [if_neg dir] at update
        exact .inl (old update)
  | fork np =>
    rcases edits.2 with same | ⟨_, copied⟩
    · exact .inl (old same)
    · rw [copied] at holds
      simp only at holds
      split at holds
      · exact .inl ⟨_, holds⟩
      · exact .inl ⟨h, holds⟩
  | exit =>
    rw [edits.2] at holds
    simp only at holds
    split at holds
    · cases holds
    · exact .inl ⟨h, holds⟩

theorem Edits.held (edits : a.Edits n p cwd b op) (held : ∀ i, a.Held i → a.tree.Live i) (i : Nat)
    (held' : b.Held i) : b.tree.Live i :=
  (edits.held_cases held').elim (fun old => edits.change.live (held i old)) And.right

end Names

end Xv6
