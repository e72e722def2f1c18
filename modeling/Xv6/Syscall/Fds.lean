/-
**Open files and descriptors within a call.**

A call takes and drops references to open files, moves them to descriptors and back, and gives an
open file the inode that it found. Each of these keeps the references accounted for, and says what
is held behind it; and none gives an open file the right to write that it did not have.
-/

import Xv6.Syscall.Holders

namespace Xv6

open Lib Function

namespace System

variable {y y' : System} {num : Slot → Nat} {n : Nat} {t : Tree} {p : Fin NPROC}
    {cwd : Slot} {f : Fslot}
  {fd : Fin NOFILE} {extra : Option Fslot} {refs : List Ref}

/-! ### Open files -/

theorem hold_setFile {g : File} (same : ∀ p fd, (y.proc p).ofile fd = some f →
    g.type = (y.ftable f).type ∧ g.ip = (y.ftable f).ip) :
    (y.setFile f g).hold num = y.hold num := by
  funext h
  cases h with
  | cwd p => rfl
  | fd p fd =>
    show ((y.proc p).ofile fd).bind _ = ((y.proc p).ofile fd).bind _
    cases opened : (y.proc p).ofile fd with
    | none => rfl
    | some f' =>
      rw [Option.bind_some, Option.bind_some]
      show (if (update y.ftable f g f').type = .inode then
        some (num (update y.ftable f g f').ip) else none) = _
      by_cases here : f' = f
      · subst here
        obtain ⟨type, ip⟩ := same p fd opened
        rw [update_self, type, ip]
      · rw [update_of_ne here]

/-- The open files with inodes had them before, and the same right to write. -/
def Keeps (y y' : System) : Prop := ∀ f, (y'.ftable f).type = .inode →
  (y.ftable f).type = .inode ∧ (y'.ftable f).writable = (y.ftable f).writable ∧
    (y'.ftable f).ip = (y.ftable f).ip

theorem Keeps.of_ftable (same : y'.ftable = y.ftable) : y.Keeps y' := fun f inode => by
  rw [same] at inode ⊢
  exact ⟨inode, rfl, rfl⟩

theorem Keeps.trans {y'' : System} (first : y.Keeps y') (second : y'.Keeps y'') : y.Keeps y'' := by
  intro f inode
  obtain ⟨inode', writable', ip'⟩ := second f inode
  obtain ⟨inode'', writable, ip⟩ := first f inode'
  exact ⟨inode'', writable'.trans writable, ip'.trans ip⟩

theorem Keeps.setFile {g : File} (same : g.type = .inode → (y.ftable f).type = .inode ∧
    g.writable = (y.ftable f).writable ∧ g.ip = (y.ftable f).ip) : y.Keeps (y.setFile f g) := by
  intro f'
  show (update y.ftable f g f').type = .inode → _ ∧
    (update y.ftable f g f').writable = _ ∧ (update y.ftable f g f').ip = _
  by_cases here : f' = f
  · subst here
    rw [update_self]
    exact same
  · rw [update_of_ne here]
    exact fun inode => ⟨inode, rfl, rfl⟩

theorem Mid.setFile {g : File} {extra' : Option Fslot} (mid : y.Mid num n refs t extra)
    (uses : ∀ s, g.uses s = (y.ftable f).uses s)
    (count : g.ref + (if extra = some f then 1 else 0) =
      (y.ftable f).ref + if extra' = some f then 1 else 0)
    (others : ∀ f', f' ≠ f → (extra' = some f' ↔ extra = some f'))
    (closed : g.ref = 0 → g.type = .none) : (y.setFile f g).Mid num n refs t extra' := by
  have users : (y.setFile f g).users = y.users := by
    funext s
    have count := y.users_setFile f g s
    rw [uses] at count
    omega
  refine ⟨?_, ?_, ?_⟩
  · rw [users]
    exact mid.ends
  · intro f'
    show (update y.ftable f g f').ref = y.fds f' + _
    by_cases here : f' = f
    · subst here
      have before := mid.files f'
      rw [update_self]
      omega
    · rw [update_of_ne here, mid.files f']
      simp only [others f' here]
  · intro f'
    show (update y.ftable f g f').ref = 0 → (update y.ftable f g f').type = .none
    by_cases here : f' = f
    · subst here
      rw [update_self]
      exact closed
    · rw [update_of_ne here]
      exact mid.closed f'

theorem Mid.setOfile {fd : Fin NOFILE} {o extra' : Option Fslot} (mid : y.Mid num n refs t extra)
    (count : ∀ f, (if o = some f then 1 else 0) + (if extra' = some f then 1 else 0) =
      (if (y.proc p).ofile fd = some f then 1 else 0) + if extra = some f then 1 else 0) :
    (y.setOfile p fd o).Mid num n refs t extra' := by
  refine ⟨?_, ?_, mid.closed⟩
  · rw [y.users_setOfile p fd o]
    exact mid.ends
  · intro f
    have before := mid.files f
    have change := y.fds_setOfile p fd o f
    have balance := count f
    show (y.ftable f).ref = _
    split_ifs at * <;> omega

theorem ofile_setOfile (y : System) (p : Fin NPROC) (fd : Fin NOFILE) (o : Option Fslot)
    (q : Fin NPROC) (fd' : Fin NOFILE) : ((y.setOfile p fd o).proc q).ofile fd' =
      if q = p ∧ fd' = fd then o else (y.proc q).ofile fd' := by
  show (update y.proc p _ q).ofile fd' = _
  by_cases here : q = p
  · subst here
    rw [update_self]
    show update (y.proc q).ofile fd o fd' = _
    rw [update_apply]
    exact if_congr (by simp) rfl rfl
  · rw [update_of_ne here, if_neg fun both => here both.1]

theorem hold_setOfile (y : System) (p : Fin NPROC) (fd : Fin NOFILE) (o : Option Fslot) :
    (y.setOfile p fd o).hold num = update (y.hold num) (.fd p fd)
      (o.bind fun f => if (y.ftable f).type = .inode then some (num (y.ftable f).ip)
      else none) := by
  funext h
  cases h with
  | cwd q =>
    rw [update_of_ne (by rintro ⟨⟩)]
    show (update y.proc p _ q).cwd.map num = (y.proc q).cwd.map num
    by_cases here : q = p
    · subst here
      rw [update_self]
    · rw [update_of_ne here]
  | fd q fd' =>
    show ((update y.proc p _ q).ofile fd').bind _ = _
    by_cases here : q = p
    · subst here
      rw [update_self]
      show (update (y.proc q).ofile fd o fd').bind _ = _
      by_cases there : fd' = fd
      · subst there
        rw [update_self, update_self]
        rfl
      · rw [update_of_ne there, update_of_ne (by rintro ⟨⟩; exact there rfl)]
        rfl
    · rw [update_of_ne here, update_of_ne (by rintro ⟨⟩; exact here rfl)]
      rfl

theorem File.uses_eq_zero {g : File} (plain : g.type ≠ .inode) (s : Slot) : g.uses s = 0 :=
  if_neg fun uses => plain uses.2.1

/-- `fileclose` drops a reference, and with the last one the inode. -/
theorem Mid.fileclose (mid : y.Mid num n refs t (some f)) :
    Meets (y.fileclose f) (fun y' => y'.Mid num n refs t none ∧ y'.proc = y.proc ∧
      y'.hold num = y.hold num ∧ y.Keeps y') fun _ => True := by
  have files := mid.files f
  rw [if_pos rfl] at files
  have others : ∀ f', f' ≠ f → (none = some f' ↔ some f = some f') := by
    intro f' other
    exact iff_of_false nofun fun same => other (Option.some.inj same).symm
  unfold System.fileclose
  simp only
  split
  · trivial
  split
  · next more =>
    refine ⟨mid.setFile (fun s => ?_) ?_ others ?_, rfl, hold_setFile fun _ _ _ => ⟨rfl, rfl⟩,
      .setFile fun inode => ⟨inode, rfl, rfl⟩⟩
    · unfold File.uses
      have both : 0 < (y.ftable f).ref - 1 ↔ 0 < (y.ftable f).ref := by omega
      simp only [both]
    · rw [if_pos rfl, if_neg nofun, Int.add_zero]
      exact Int.sub_add_cancel _ _
    · intro zero
      simp only at zero
      omega
  · next some' last =>
    have unused : y.fds f = 0 := by omega
    have gone : ∀ p fd, (y.proc p).ofile fd ≠ some f := by
      intro p fd opened
      exact absurd (fds_pos.mpr ⟨p, fd, opened⟩) (by omega)
    have hold : ∀ g : File, (y.setFile f g).hold num = y.hold num := fun g =>
      hold_setFile fun p fd opened => absurd opened (gone p fd)
    have count : ∀ g : File, g.ref = 0 → g.ref + (if some f = some f then 1 else 0) =
        (y.ftable f).ref + if none = some f then 1 else 0 := by
      intro g zero
      rw [if_pos rfl, if_neg nofun]
      omega
    have keeps : y.Keeps (y.setFile f { y.ftable f with ref := 0, type := .none }) := .setFile nofun
    cases type : (y.ftable f).type with
    | none =>
      refine ⟨mid.setFile (fun s => ?_) (count _ rfl) others fun _ => rfl, rfl, hold _, keeps⟩
      rw [File.uses_eq_zero (by rintro ⟨⟩), File.uses_eq_zero (by rw [type]; rintro ⟨⟩)]
    | pipe =>
      have closed :
          (y.setFile f { y.ftable f with ref := 0, type := .none }).Mid num n refs t none := by
        refine mid.setFile (fun s => ?_) (count _ rfl) others fun _ => rfl
        rw [File.uses_eq_zero (by rintro ⟨⟩), File.uses_eq_zero (by rw [type]; rintro ⟨⟩)]
      exact ⟨⟨closed.ends, closed.files, closed.closed⟩, rfl, hold _, keeps⟩
    | inode =>
      -- The slot of the file goes back to the call, and then to nobody.
      have fewer : ∀ s, (y.setFile f { y.ftable f with ref := 0, type := .none }).users s +
          (if s = (y.ftable f).ip then 1 else 0) = y.users s := by
        intro s
        have change := y.users_setFile f { y.ftable f with ref := 0, type := .none } s
        rw [File.uses_eq_zero (g := { y.ftable f with ref := 0, type := .none }) (by rintro ⟨⟩)]
          at change
        have before : (y.ftable f).uses s = if s = (y.ftable f).ip then 1 else 0 := by
          unfold File.uses
          have used : 0 < (y.ftable f).ref := by omega
          simp only [used, type, true_and]
          exact if_congr eq_comm rfl rfl
        omega
      have ends :
          y.kernel.Ends ⟨_, num, n⟩ (⟨(y.ftable f).ip, num (y.ftable f).ip, false⟩ :: refs) t :=
        ⟨mid.ends.within.borrow fewer, mid.ends.freed⟩
      refine ends.beginOp.bind fun k₁ ends₁ => ?_
      refine ends₁.iput.bind fun k₂ ends₂ => ?_
      refine ends₂.endOp.bind fun k₃ ends₃ => ?_
      refine ⟨⟨ends₃, ?_, ?_⟩, rfl, hold _, keeps⟩
      · intro f'
        show (update y.ftable f _ f').ref = y.fds f' + _
        by_cases here : f' = f
        · subst here
          rw [update_self, unused]
          rfl
        · rw [update_of_ne here, mid.files f', if_neg (mt (others f' here).mpr nofun), if_neg nofun]
      · intro f'
        show (update y.ftable f _ f').ref = 0 → (update y.ftable f _ f').type = .none
        by_cases here : f' = f
        · subst here
          rw [update_self]
          exact fun _ => rfl
        · rw [update_of_ne here]
          exact mid.closed f'

theorem fileclose_setOfile (y : System) (p : Fin NPROC) (fd : Fin NOFILE) (o : Option Fslot)
    (f : Fslot) :
    (y.setOfile p fd o).fileclose f = do
      let y ← y.fileclose f
      return y.setOfile p fd o := by
  unfold System.fileclose
  simp only
  show (if (y.ftable f).ref < 1 then _ else if 0 < (y.ftable f).ref - 1 then _ else _) = _
  split
  · rfl
  split
  · rfl
  simp only [show (y.setOfile p fd o).ftable = y.ftable from rfl]
  cases (y.ftable f).type with
  | pipe => rfl
  | none => rfl
  | inode =>
    simp only [bind_assoc, pure_bind]
    rfl

/-- An open file that may write could do so before, or has no directory. -/
def Guards (y y' : System) : Prop :=
  ∀ f, (y'.ftable f).type = .inode → (y'.ftable f).writable = true → (y.ftable f).type = .inode ∧
    (y.ftable f).writable = true ∧ (y'.ftable f).ip = (y.ftable f).ip ∨
  ¬ y'.kernel.fs.view.tree.Dir (y'.inum (y'.ftable f).ip)

theorem Keeps.guards (keeps : y.Keeps y') : y.Guards y' := by
  intro f inode writable
  obtain ⟨inode', same, ip⟩ := keeps f inode
  exact .inl ⟨inode', same.symm.trans writable, ip⟩

theorem Mid.kernel {refs' : List Ref} {t' : Tree} {k : Kernel} (mid : y.Mid num n refs t extra)
    (ends : k.Ends ⟨y.users, num, n⟩ refs' t') :
    ({ y with kernel := k } : System).Mid num n refs' t' extra :=
  ⟨ends, mid.files, mid.closed⟩

/-! ### Descriptors -/

theorem hold_of_none (unused : (y.proc p).ofile fd = none) : y.hold num (.fd p fd) = none := by
  show ((y.proc p).ofile fd).bind _ = none
  rw [unused]
  rfl

theorem hold_of_some (opened : (y.proc p).ofile fd = some f) : y.hold num (.fd p fd) =
    if (y.ftable f).type = .inode then some (num (y.ftable f).ip) else none := by
  show ((y.proc p).ofile fd).bind _ = _
  rw [opened]
  rfl

theorem Mid.close (mid : y.Mid num n refs t none) (opened : (y.proc p).ofile fd = some f) :
    Meets ((y.setOfile p fd none).fileclose f) (fun y' => y'.Mid num n refs t none ∧
      y'.proc = (y.setOfile p fd none).proc ∧
      y'.hold num = update (y.hold num) (.fd p fd) none ∧ y.Keeps y') fun _ => True := by
  have mid' : (y.setOfile p fd none).Mid num n refs t (some f) := by
    refine mid.setOfile fun f' => ?_
    rw [opened]
    simp
  refine mid'.fileclose.imp ?_
  rintro y' ⟨after, proc, hold, keeps⟩
  exact ⟨after, proc, hold.trans (y.hold_setOfile p fd none), keeps⟩

theorem closeFd_eq (opened : (y.proc p).ofile fd = some f) :
    closeFd p y fd = (y.setOfile p fd none).fileclose f := by
  unfold closeFd
  rw [opened, fileclose_setOfile]

/-- One more descriptor of `p` gets what `new` says of it. -/
theorem update_fds (new old : Holder → Option Nat) (p : Fin NPROC) (done : List (Fin NOFILE))
    (fd : Fin NOFILE) :
    update (fun h => if ∃ fd' ∈ done, h = .fd p fd' then new h else old h) (.fd p fd)
      (new (.fd p fd)) = fun h => if ∃ fd' ∈ done ++ [fd], h = .fd p fd' then new h else old h := by
  funext h
  rw [update_apply]
  by_cases here : h = .fd p fd
  · rw [if_pos here, if_pos ⟨fd, by simp, here⟩, here]
  · rw [if_neg here]
    refine if_congr (exists_congr fun fd' => ?_) rfl rfl
    rw [List.mem_append, List.mem_singleton]
    constructor
    · exact fun ⟨member, same⟩ => ⟨.inl member, same⟩
    · rintro ⟨member | rfl, same⟩
      · exact ⟨member, same⟩
      · exact absurd same here

/-- The loop of `exit` over the descriptors. -/
theorem Mid.closeFds (mid : y.Mid num n refs t none) :
    Meets ((List.finRange NOFILE).foldlM (closeFd p) y) (fun y' => y'.Mid num n refs t none ∧
      (∀ q, (y'.proc q).cwd = (y.proc q).cwd) ∧ y.Keeps y' ∧
      y'.hold num = fun h => if ∃ fd, h = .fd p fd then none else y.hold num h) fun _ => True := by
  let Inv : List (Fin NOFILE) → System → Prop := fun done y' => y'.Mid num n refs t none ∧
    (∀ q, (y'.proc q).cwd = (y.proc q).cwd) ∧ y.Keeps y' ∧
    y'.hold num = fun h => if ∃ fd ∈ done, h = .fd p fd then none else y.hold num h
  have start : Inv [] y := ⟨mid, fun _ => rfl, .of_ftable rfl, by simp⟩
  have loop : Meets ((List.finRange NOFILE).foldlM (closeFd p) y) (Inv (List.finRange NOFILE))
      fun _ => True := by
    refine Meets.foldlM Inv start ?_
    rintro done fd rest y' _ ⟨mid', cwds, keeps, hold⟩
    have extend : update (y'.hold num) (.fd p fd) none =
        fun h => if ∃ fd' ∈ done ++ [fd], h = .fd p fd' then none else y.hold num h := by
      rw [hold]
      exact update_fds (fun _ => none) _ p done fd
    cases opened : (y'.proc p).ofile fd with
    | none =>
      have idle : closeFd p y' fd = .ok y' := by
        unfold closeFd
        rw [opened]
      rw [idle]
      refine ⟨mid', cwds, keeps, ?_⟩
      rw [← extend]
      exact (update_eq_self_iff.mpr (hold_of_none opened).symm).symm
    | some f =>
      rw [closeFd_eq opened]
      refine (mid'.close opened).imp ?_
      rintro y'' ⟨mid'', proc, hold'', keeps'⟩
      refine ⟨mid'', fun q => ?_, keeps.trans keeps', hold''.trans extend⟩
      rw [proc, ← cwds q]
      show (update y'.proc p _ q).cwd = _
      by_cases here : q = p
      · subst here
        rw [update_self]
      · rw [update_of_ne here]
  refine loop.imp ?_
  rintro y' ⟨mid', cwds, keeps, hold⟩
  refine ⟨mid', cwds, keeps, hold.trans (funext fun h => if_congr ?_ rfl rfl)⟩
  simp only [List.mem_finRange, true_and]

theorem Mid.filedup (mid : y.Mid num n refs t none) (used : 1 ≤ (y.ftable f).ref) :
    (y.setFile f { y.ftable f with ref := (y.ftable f).ref + 1 }).Mid num n refs t (some f) := by
  refine mid.setFile (fun s => ?_) ?_ ?_ ?_
  · unfold File.uses
    have both : 0 < (y.ftable f).ref + 1 ↔ 0 < (y.ftable f).ref := by omega
    simp only [both]
  · simp
  · intro f' differs
    simp [Ne.symm differs]
  · intro zero
    simp only at zero
    omega

theorem Mid.dupFd {np : Fin NPROC} (mid : y.Mid num n refs t none) (other : np ≠ p)
    (unused : (y.proc np).ofile fd = none) :
    Meets (dupFd p np y fd) (fun y' => y'.Mid num n refs t none ∧ y'.kernel = y.kernel ∧
      (∀ q, (y'.proc q).cwd = (y.proc q).cwd) ∧ (∀ fd, (y'.proc p).ofile fd = (y.proc p).ofile fd) ∧
      (∀ fd', fd' ≠ fd → (y'.proc np).ofile fd' = (y.proc np).ofile fd') ∧ y.Keeps y' ∧
      y'.hold num = update (y.hold num) (.fd np fd) (y.hold num (.fd p fd))) fun _ => True := by
  unfold System.dupFd
  cases opened : (y.proc p).ofile fd with
  | none =>
    refine ⟨mid, rfl, fun _ => rfl, fun _ => rfl, fun _ _ => rfl, .of_ftable rfl, ?_⟩
    refine (update_eq_self_iff.mpr ?_).symm
    rw [hold_of_none unused, hold_of_none opened]
  | some f =>
    simp only
    by_cases free : (y.ftable f).ref < 1
    · rw [show y.filedup f = .error (.panic .filedup) from if_pos free]
      trivial
    rw [show y.filedup f = .ok (y.setFile f { y.ftable f with ref := (y.ftable f).ref + 1 })
      from if_neg free]
    have mid₁ := mid.filedup (not_lt.mp free)
    have hold₁ :
        (y.setFile f { y.ftable f with ref := (y.ftable f).ref + 1 }).hold num = y.hold num :=
      hold_setFile fun _ _ _ => ⟨rfl, rfl⟩
    refine ⟨mid₁.setOfile fun f' => ?_, rfl, fun q => ?_, fun fd' => ?_, fun fd' differs => ?_,
      .setFile fun inode => ⟨inode, rfl, rfl⟩, ?_⟩
    · rw [show ((y.setFile f { y.ftable f with ref := (y.ftable f).ref + 1 }).proc np).ofile fd =
        none
        from unused]
      simp
    · show (update y.proc np _ q).cwd = _
      by_cases here : q = np
      · subst here
        rw [update_self]
        rfl
      · rw [update_of_ne here]
    · show (update y.proc np _ p).ofile fd' = _
      rw [update_of_ne (Ne.symm other)]
    · show (update y.proc np _ np).ofile fd' = _
      rw [update_self]
      exact update_of_ne differs _ _
    · rw [hold_setOfile, hold₁, hold_of_some opened, Option.bind_some]
      congr 1
      show (if (update y.ftable f _ f).type = .inode then
        some (num (update y.ftable f _ f).ip) else none) = _
      rw [update_self]

/-- The loop of `fork` over the descriptors. -/
theorem Mid.dupFds {np : Fin NPROC} (mid : y.Mid num n refs t none) (other : np ≠ p)
    (unused : ∀ fd, (y.proc np).ofile fd = none) :
    Meets ((List.finRange NOFILE).foldlM (System.dupFd p np) y)
      (fun y' => y'.Mid num n refs t none ∧ y'.kernel = y.kernel ∧
      (∀ q, (y'.proc q).cwd = (y.proc q).cwd) ∧ y.Keeps y' ∧
      y'.hold num = fun h => if ∃ fd, h = .fd np fd then y.hold num (h.of p) else y.hold num h)
      fun _ => True := by
  let Inv : List (Fin NOFILE) → System → Prop := fun done y' => y'.Mid num n refs t none ∧
    y'.kernel = y.kernel ∧ (∀ q, (y'.proc q).cwd = (y.proc q).cwd) ∧
    (∀ fd ∉ done, (y'.proc np).ofile fd = none) ∧ y.Keeps y' ∧
    y'.hold num = fun h => if ∃ fd ∈ done, h = .fd np fd then y.hold num (h.of p) else y.hold num h
  have start : Inv [] y := ⟨mid, rfl, fun _ => rfl, fun fd _ => unused fd, .of_ftable rfl, by simp⟩
  have loop : Meets ((List.finRange NOFILE).foldlM (System.dupFd p np) y)
    (Inv (List.finRange NOFILE))
      fun _ => True := by
    refine Meets.foldlM Inv start ?_
    rintro done fd rest y' split ⟨mid', kernel, cwds, free, keeps, hold⟩
    have new : fd ∉ done := by
      have distinct := List.nodup_finRange NOFILE
      rw [split] at distinct
      intro member
      exact (List.disjoint_of_nodup_append distinct) member List.mem_cons_self
    refine (mid'.dupFd other (free fd new)).imp ?_
    rintro y'' ⟨mid'', kernel', cwds', _, others, keeps', hold'⟩
    refine ⟨mid'', kernel'.trans kernel, fun q => (cwds' q).trans (cwds q), ?_,
      keeps.trans keeps', ?_⟩
    · intro fd' outside
      rw [List.mem_append, List.mem_singleton, not_or] at outside
      rw [others fd' outside.2]
      exact free fd' outside.1
    · have source : y'.hold num (.fd p fd) = y.hold num (.fd p fd) := by
        rw [hold]
        exact if_neg (by rintro ⟨_, _, ⟨⟩⟩; exact other rfl)
      rw [hold', source, hold]
      exact update_fds (fun h => y.hold num (h.of p)) _ np done fd
  refine loop.imp ?_
  rintro y' ⟨mid', kernel, cwds, _, keeps, hold⟩
  refine ⟨mid', kernel, cwds, keeps, hold.trans (funext fun h => if_congr ?_ rfl rfl)⟩
  simp only [List.mem_finRange, true_and]

/-! ### Current directories -/

theorem users_cwd (current : (y.proc p).cwd = some cwd) : 0 < y.users cwd :=
  users_pos.mpr (.inl ⟨p, current⟩)

theorem hold_setCwd (y : System) (p : Fin NPROC) (o : Option Slot) :
    (y.setProc p { y.proc p with cwd := o }).hold num =
      update (y.hold num) (.cwd p) (o.map num) := by
  funext h
  cases h with
  | cwd q =>
    show (update y.proc p _ q).cwd.map num = _
    by_cases here : q = p
    · subst here
      rw [update_self, update_self]
    · rw [update_of_ne here, update_of_ne (by rintro ⟨⟩; exact here rfl)]
      rfl
  | fd q fd =>
    rw [update_of_ne (by rintro ⟨⟩)]
    show ((update y.proc p _ q).ofile fd).bind _ = ((y.proc q).ofile fd).bind _
    by_cases here : q = p
    · subst here
      rw [update_self]
      rfl
    · rw [update_of_ne here]
      rfl

theorem users_setCwd (current : (y.proc p).cwd = some cwd) (o : Option Slot) (s : Slot) :
    (y.setProc p { y.proc p with cwd := o }).users s + (if s = cwd then 1 else 0) =
      y.users s + if o = some s then 1 else 0 := by
  have change := y.users_setProc p { y.proc p with cwd := o } s
  have before : (y.proc p).uses s = if s = cwd then 1 else 0 := by
    unfold UserProc.uses
    rw [current]
    refine if_congr ?_ rfl rfl
    rw [Option.some.injEq, eq_comm]
  rw [before] at change
  exact change

/-! ### New open files -/

theorem filealloc_eq (found : y.filealloc = some (f, y')) :
    (y.ftable f).ref = 0 ∧ y' = y.setFile f { y.ftable f with ref := 1 } := by
  unfold filealloc at found
  split at found
  · cases found
  · next g free =>
    cases found
    exact ⟨by simpa using List.find?_some free, rfl⟩

theorem fdalloc_eq (found : y.fdalloc p f = some (fd, y')) :
    (y.proc p).ofile fd = none ∧ y' = y.setOfile p fd (some f) := by
  unfold fdalloc at found
  split at found
  · cases found
  · next fd' free =>
    cases found
    exact ⟨by simpa using List.find?_some free, rfl⟩

theorem Mid.filealloc (mid : y.Mid num n refs t none) (free : (y.ftable f).ref = 0) :
    (y.setFile f { y.ftable f with ref := 1 }).Mid num n refs t (some f) := by
  have plain := mid.closed f free
  refine mid.setFile (fun s => ?_) ?_ ?_ ?_
  · rw [File.uses_eq_zero (g := { y.ftable f with ref := 1 }) (show (y.ftable f).type ≠ .inode by
      rw [plain]; rintro ⟨⟩), File.uses_eq_zero (by rw [plain]; rintro ⟨⟩)]
  · simp [free]
  · intro f' differs
    simp [Ne.symm differs]
  · intro zero
    cases zero

theorem Mid.attach {s : Slot} {i : Nat} {g : File} (mid : y.Mid num n [⟨s, i, true⟩] t none)
    (opened : (y.proc p).ofile fd = some f) (plain : (y.ftable f).type = .none)
    (only : ∀ q fd', (y.proc q).ofile fd' = some f → q = p ∧ fd' = fd)
    (inode : g.type = .inode ∧ g.ip = s ∧ g.ref = (y.ftable f).ref) :
    (y.setFile f g).Mid (update num s i) n [] t none ∧
      (y.setFile f g).hold (update num s i) = update (y.hold num) (.fd p fd) (some i) := by
  have files : ∀ f, (y.ftable f).ref = y.fds f := fun f => (mid.files f).trans (Int.add_zero _)
  have used : 0 < (y.ftable f).ref := by
    have := fds_pos.mpr ⟨p, fd, opened⟩
    rw [files]
    omega
  have more : ∀ s', (y.setFile f g).users s' = y.users s' + if s' = s then 1 else 0 := by
    intro s'
    have change := y.users_setFile f g s'
    rw [File.uses_eq_zero (g := y.ftable f) (by rw [plain]; rintro ⟨⟩), Nat.add_zero] at change
    have after : g.uses s' = if s' = s then 1 else 0 := by
      unfold File.uses
      rw [inode.1, inode.2.1, inode.2.2]
      refine if_congr ?_ rfl rfl
      exact ⟨fun all => all.2.2.symm, fun same => ⟨used, rfl, same.symm⟩⟩
    rw [← after]
    exact change
  have within := mid.ends.within
  have lent := within.lend (within.live List.mem_cons_self rfl) more
  refine ⟨⟨⟨lent, mid.ends.freed⟩, ?_, ?_⟩, ?_⟩
  · intro f'
    show (update y.ftable f g f').ref = y.fds f' + _
    by_cases here : f' = f
    · subst here
      rw [update_self, inode.2.2]
      exact mid.files f'
    · rw [update_of_ne here]
      exact mid.files f'
  · intro f'
    show (update y.ftable f g f').ref = 0 → (update y.ftable f g f').type = .none
    by_cases here : f' = f
    · subst here
      rw [update_self, inode.2.2]
      intro zero
      omega
    · rw [update_of_ne here]
      exact mid.closed f'
  · have same : y.hold (update num s i) = y.hold num := hold_congr files within.update_num
    rw [← same]
    funext h
    rw [update_apply]
    cases h with
    | cwd q =>
      rw [if_neg (by rintro ⟨⟩)]
      rfl
    | fd q fd' =>
      by_cases here : Holder.fd q fd' = .fd p fd
      · cases here
        have opened' : ((y.setFile f g).proc p).ofile fd = some f := opened
        rw [if_pos rfl, hold_of_some opened']
        show (if (update y.ftable f g f).type = .inode then
          some (update num s i (update y.ftable f g f).ip) else none) = some i
        rw [update_self, if_pos inode.1, inode.2.1, update_self]
      · rw [if_neg here]
        show ((y.proc q).ofile fd').bind _ = ((y.proc q).ofile fd').bind _
        cases opened' : (y.proc q).ofile fd' with
        | none => rfl
        | some f' =>
          have other : f' ≠ f := by
            rintro rfl
            obtain ⟨rfl, rfl⟩ := only q fd' opened'
            exact here rfl
          rw [Option.bind_some, Option.bind_some]
          rw [show (y.setFile f g).ftable f' = y.ftable f' from update_of_ne other _ _]

theorem Mid.fdalloc (mid : y.Mid num n refs t (some f)) (unused : (y.proc p).ofile fd = none) :
    (y.setOfile p fd (some f)).Mid num n refs t none :=
  mid.setOfile fun f' => by
    rw [unused]
    simp

theorem Mid.install {s : Slot} {i : Nat} {g : File} {k : Kernel}
    (mid : y.Mid num n [⟨s, i, true⟩] t (some f)) (plain : (y.ftable f).type = .none)
    (gone : ∀ q fd, (y.proc q).ofile fd ≠ some f) (unused : (y.proc p).ofile fd = none)
    (ends : k.Ends ⟨(y.setOfile p fd (some f)).users, num, n⟩ [⟨s, i, true⟩] t)
    (inode : g.type = .inode ∧ g.ip = s ∧ g.ref = (y.ftable f).ref) :
    (({ y.setOfile p fd (some f) with kernel := k } : System).setFile f g).Mid (update num s i) n []
        t none ∧
      (({ y.setOfile p fd (some f) with kernel := k } : System).setFile f g).hold (update num s i) =
        update (y.hold num) (.fd p fd) (some i) := by
  have opened := y.ofile_setOfile p fd (some f)
  obtain ⟨mid', hold⟩ := ((mid.fdalloc unused).kernel ends).attach
    ((opened p fd).trans (if_pos ⟨rfl, rfl⟩)) plain (fun q fd' here => by
      by_contra other
      exact gone q fd' (((opened q fd').trans (if_neg other)).symm.trans here)) inode
  refine ⟨mid', hold.trans ?_⟩
  rw [show ({ y.setOfile p fd (some f) with kernel := k } : System).hold num =
    (y.setOfile p fd (some f)).hold num from rfl, hold_setOfile, update_idem]

theorem not_writable {omode : BitVec 32} (reads : omode = O_RDONLY) :
    ¬ (omode &&& O_WRONLY != 0 || omode &&& O_RDWR != 0) = true := by
  subst reads
  decide

theorem Keeps.opened {g : File} {s : Slot} (keeps : y.Keeps y') (slot : g.ip = s)
    (plain : g.writable = true → ¬ y'.kernel.fs.view.tree.Dir (y'.inum s)) :
    y.Guards (y'.setFile f g) := by
  intro f' inode writable
  have look : (y'.setFile f g).ftable f' = if f' = f then g else y'.ftable f' := update_apply ..
  rw [look] at inode writable ⊢
  by_cases here : f' = f
  · rw [if_pos here] at writable ⊢
    rw [slot]
    exact .inr (plain writable)
  · rw [if_neg here] at inode writable ⊢
    exact keeps.guards f' inode writable

end System

end Xv6
