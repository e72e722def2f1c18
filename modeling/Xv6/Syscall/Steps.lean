/-
**Every call is a step of the machine of names.**

A completed call keeps the references accounted for, and its effect on names and holders is one step
of `Names.Step`: the edit the call is for, and then every inode without a link and without a holder
is free. A call that adds names may draw blocks, and these must lie before the log (`HasRoom`).
-/

import Xv6.Syscall.Fds

namespace Xv6

open Lib Function

/-- The blocks that a call may draw. -/
def NameOp.draws : NameOp → Nat
  | .link _ _ => 2
  | .mkdir _ => Kernel.createCost T_DIR
  | .mknod _ _ _ => Kernel.createCost T_DEV
  | .open _ omode => if omode &&& O_CREATE ≠ 0 then Kernel.createCost T_FILE else 0
  | _ => 0

namespace System

variable {y y' : System} {num : Slot → Nat} {n : Nat} {t : Tree} {p : Fin NPROC} {cwd : Slot}

/-- The blocks that the call may draw lie before the log. -/
def HasRoom (y : System) (op : NameOp) : Prop :=
  ∀ b ∈ y.kernel.fs.view.free.take op.draws, b < y.kernel.fs.view.sb.logStart

/-- **What a completed call leaves**: every reference is accounted for, and names and holders made
one step. -/
structure Stepped (y : System) (n : Nat) (e : Fin NPROC × NameOp) (y' : System) : Prop where
  sound : y'.Sound n
  step : y.names.Step n e y'.names
  steady : ∀ s, 0 < y.users s → 0 < y'.users s → y'.inum s = y.inum s
  guards : y.Guards y'

section Steps

variable {op : NameOp} {path : List UInt8}

theorem Sound.roomy (sound : y.Sound n) (room : y.HasRoom op) :
    y.kernel.Within ⟨y.users, y.inum, n⟩ [] op.draws :=
  { sound.within with low := room }

/-- An edit and a collection of what nothing refers to make a step. -/
theorem Mid.step_of (current : (y.proc p).cwd = some cwd) (mid : y'.Mid num n [] t none)
    (agrees : ∀ s, 0 < y.users s → num s = y.inum s) (guards : y.Guards y')
    (edits : y.names.Edits n p (y.inum cwd) ⟨t, y'.hold num⟩ op) : y.Stepped n (p, op) y' := by
  obtain ⟨sound, names⟩ := mid.settle
  have holds : y.names.hold (.cwd p) = some (y.inum cwd) := by
    show (y.proc p).cwd.map y.inum = _
    rw [current]
    rfl
  refine ⟨sound, ?_, fun s before after => (mid.ends.within.nums s after).trans (agrees s before),
    guards⟩
  unfold Names.Step
  simp only [holds]
  exact ⟨_, edits, names⟩

theorem Mid.step (current : (y.proc p).cwd = some cwd) (mid : y'.Mid y.inum n [] t none)
    (keeps : y.Keeps y') (edits : y.names.Edits n p (y.inum cwd) ⟨t, y'.hold y.inum⟩ op) :
    y.Stepped n (p, op) y' :=
  mid.step_of current (fun _ _ => rfl) keeps.guards edits

/-! ### Names -/

theorem Sound.call_link (sound : y.Sound n) (ranged : y.kernel.fs.view.tree.Ranged n)
    (current : (y.proc p).cwd = some cwd) {old new : List UInt8}
    (room : y.HasRoom (.link old new)) :
    Meets (y.call p cwd (.link old new))
      (fun y' => y.Stepped n (p, .link old new) y') fun _ => True := by
  refine ((sound.roomy room).spells.sysLink ranged (users_cwd current)).bind ?_
  rintro ⟨_, k⟩ ⟨t', links, ends⟩
  exact (sound.mid.kernel ends).step current (.of_ftable rfl) ⟨rfl, links⟩

theorem Sound.call_unlink (sound : y.Sound n) (ranged : y.kernel.fs.view.tree.Ranged n)
    (current : (y.proc p).cwd = some cwd) :
    Meets (y.call p cwd (.unlink path))
      (fun y' => y.Stepped n (p, .unlink path) y') fun _ => True := by
  refine (sound.within.spells.sysUnlink ranged (users_cwd current)).bind ?_
  rintro ⟨_, k⟩ ⟨t', unlinks, ends⟩
  exact (sound.mid.kernel ends).step current (.of_ftable rfl) ⟨rfl, unlinks⟩

theorem Sound.call_mkdir (sound : y.Sound n) (ranged : y.kernel.fs.view.tree.Ranged n)
    (current : (y.proc p).cwd = some cwd) (room : y.HasRoom (.mkdir path)) :
    Meets (y.call p cwd (.mkdir path))
      (fun y' => y.Stepped n (p, .mkdir path) y') fun _ => True := by
  have creates := (sound.roomy room).spells.sysCreate ranged (users_cwd current)
    (by decide) path 0 0
  refine creates.bind ?_
  rintro ⟨_, k⟩ ⟨t', made, creates, ends⟩
  exact (sound.mid.kernel ends).step current (.of_ftable rfl) ⟨rfl, made, creates⟩

theorem Sound.call_mknod (sound : y.Sound n) (ranged : y.kernel.fs.view.tree.Ranged n)
    (current : (y.proc p).cwd = some cwd) {major minor : Int16}
    (room : y.HasRoom (.mknod path major minor)) :
    Meets (y.call p cwd (.mknod path major minor))
      (fun y' => y.Stepped n (p, .mknod path major minor) y') fun _ => True := by
  have creates := (sound.roomy room).spells.sysCreate ranged (users_cwd current)
    (by decide) path major minor
  refine creates.bind ?_
  rintro ⟨_, k⟩ ⟨t', made, creates, ends⟩
  exact (sound.mid.kernel ends).step current (.of_ftable rfl) ⟨rfl, made, creates⟩

/-! ### Open files and current directories -/

theorem Sound.call_close (sound : y.Sound n) (current : (y.proc p).cwd = some cwd)
    {fd : BitVec 32} :
    Meets (y.call p cwd (.close fd))
      (fun y' => y.Stepped n (p, .close fd) y') fun _ => True := by
  unfold System.call System.sysClose
  by_cases inside : fd.toNat < NOFILE
  · simp only [dif_pos inside]
    cases opened : (y.proc p).ofile ⟨fd.toNat, inside⟩ with
    | none =>
      refine sound.mid.step current (.of_ftable rfl) ⟨rfl, ?_⟩
      rw [dif_pos inside]
      refine (update_eq_self_iff.mpr ?_).symm
      exact (hold_of_none opened).symm
    | some f =>
      simp only [bind_assoc, pure_bind]
      refine (sound.mid.close opened).bind ?_
      rintro y' ⟨mid, _, hold, keeps⟩
      refine mid.step current keeps ⟨rfl, ?_⟩
      rw [dif_pos inside]
      exact hold
  · simp only [dif_neg inside]
    refine sound.mid.step current (.of_ftable rfl) ⟨rfl, ?_⟩
    rw [dif_neg inside]
    rfl

theorem update_holders {hold fds : Holder → Option Nat} {o : Option Nat}
    (held : Holder → Option Nat) (cwd : o = held (.cwd p))
    (same : ∀ fd, fds (.fd p fd) = held (.fd p fd)) :
    update (fun h => if ∃ fd, h = .fd p fd then fds h else hold h) (.cwd p) o =
      fun h => if h.proc = p then held h else hold h := by
  funext h
  rw [update_apply]
  cases h with
  | cwd q =>
    rw [if_neg (show ¬ ∃ fd, Holder.cwd q = .fd p fd by rintro ⟨_, ⟨⟩⟩)]
    by_cases here : q = p
    · subst here
      rw [if_pos rfl, if_pos (show (Holder.cwd q).proc = q from rfl), cwd]
    · rw [if_neg (by rintro ⟨⟩; exact here rfl), if_neg (show ¬ (Holder.cwd q).proc = p from here)]
  | fd q fd =>
    rw [if_neg (by rintro ⟨⟩)]
    by_cases here : q = p
    · subst here
      rw [if_pos ⟨fd, rfl⟩, if_pos (show (Holder.fd q fd).proc = q from rfl), same]
    · rw [if_neg (by rintro ⟨_, ⟨⟩⟩; exact here rfl),
        if_neg (show ¬ (Holder.fd q fd).proc = p from here)]

theorem Sound.call_exit (sound : y.Sound n) (current : (y.proc p).cwd = some cwd) :
    Meets (y.call p cwd .exit)
      (fun y' => y.Stepped n (p, .exit) y') fun _ => True := by
  unfold System.call exitFiles
  simp only
  split
  · trivial
  refine sound.mid.closeFds.bind ?_
  rintro y₁ ⟨mid₁, cwds, keeps, hold₁⟩
  have current₁ : (y₁.proc p).cwd = some cwd := (cwds p).trans current
  have fewer :
      ∀ s, (y₁.setProc p { y₁.proc p with cwd := none }).users s + (if s = cwd then 1 else 0) =
      y₁.users s := by
    intro s
    have change := users_setCwd current₁ none s
    rw [if_neg (show ¬ none = some s by rintro ⟨⟩), Nat.add_zero] at change
    exact change
  have ends : y₁.kernel.Ends ⟨_, y.inum, n⟩ [⟨cwd, y.inum cwd, false⟩] y.kernel.fs.view.tree :=
    ⟨mid₁.ends.within.borrow fewer, mid₁.ends.freed⟩
  refine ends.beginOp.bind fun k₂ ends₂ => ?_
  refine ends₂.iput.bind fun k₃ ends₃ => ?_
  refine ends₃.endOp.bind fun k₄ ends₄ => ?_
  refine Mid.step current (show Mid _ y.inum _ _ _ _ from ⟨ends₄, fun f => ?_, mid₁.closed⟩)
    keeps ⟨rfl, ?_⟩
  · exact (mid₁.files f).trans (by rw [← y₁.fds_setCwd p none f]; rfl)
  · refine (y₁.hold_setCwd p none).trans ?_
    rw [hold₁]
    exact update_holders (fun _ => none) rfl fun _ => rfl

theorem Sound.sysChdir (sound : y.Sound n) (ranged : y.kernel.fs.view.tree.Ranged n)
    (current : (y.proc p).cwd = some cwd) :
    Meets (y.sysChdir p cwd path)
      (fun (_, y') => y.Stepped n (p, .chdir path) y') fun _ => True := by
  have user := users_cwd current
  unfold System.sysChdir
  refine sound.within.spells.beginOp.bind fun k₁ spells₁ => ?_
  refine (spells₁.namei ranged user).bind ?_
  rintro ⟨_, k₂⟩ (⟨rfl, target, spells₂⟩ | ⟨s, i, rfl, target, inside, spells₂⟩)
  · refine spells₂.ends.endOp.bind fun k₃ ends₃ => ?_
    refine (sound.mid.kernel ends₃).step current (.of_ftable rfl) ⟨rfl, ?_⟩
    rw [show y.names.tree.resolve (y.inum cwd) path = none from target]
    rfl
  refine (spells₂.ends.ilock inside).bind fun k₃ ends₃ => ?_
  show Meets (if (k₃.icache s).din.type ≠ T_DIR then _ else _) _ _
  rw [ends₃.loaded.1]
  by_cases dir : y.names.tree.Dir i
  · rw [if_neg (not_not.mpr (show y.kernel.fs.view.tree.type i = T_DIR from dir))]
    refine (ends₃.iunlock s).bind fun k₄ ends₄ => ?_
    -- The reference of the call becomes that of the process, whose old one is dropped.
    have fewer :
        ∀ s', (y.users s' - if s' = cwd then 1 else 0) + (if s' = cwd then 1 else 0) =
        y.users s' := by
      intro s'
      split_ifs with same
      · subst same
        exact Nat.sub_add_cancel user
      · rw [Nat.sub_zero, Nat.add_zero]
    have more : ∀ s', (y.setProc p { y.proc p with cwd := some s }).users s' =
        (y.users s' - if s' = cwd then 1 else 0) + if s' = s then 1 else 0 := by
      intro s'
      have change := users_setCwd current (some s) s'
      have less := fewer s'
      rw [if_congr (show some s = some s' ↔ s' = s by rw [Option.some.injEq, eq_comm]) rfl rfl]
        at change
      split_ifs at * <;> omega
    have ends₄' :
        k₄.Ends _ (⟨cwd, y.inum cwd, false⟩ :: [Ref.load ⟨s, i, false⟩]) y.kernel.fs.view.tree :=
      ⟨ends₄.within.borrow fewer, ends₄.freed⟩
    refine ends₄'.iput.bind fun k₅ ends₅ => ?_
    refine ends₅.endOp.bind fun k₆ ends₆ => ?_
    have lent := ends₆.within.lend (ends₆.within.live List.mem_cons_self rfl) more
    have agrees := ends₃.within.update_num
    refine Mid.step_of current
      (show Mid _ (update y.inum s i) _ _ _ _ from ⟨⟨lent, ends₆.freed⟩, ?_, sound.closed⟩)
      agrees (Keeps.of_ftable rfl).guards ⟨rfl, ?_⟩
    · intro f
      exact ((sound.files f).trans (by rw [← y.fds_setCwd p (some s) f]; rfl)).trans
        (Int.add_zero _).symm
    · rw [show y.names.tree.resolve (y.inum cwd) path = some i from target]
      simp only
      rw [if_pos dir]
      refine (y.hold_setCwd p (some s)).trans ?_
      have same : y.hold (update y.inum s i) = y.hold y.inum := hold_congr sound.files agrees
      rw [same, Option.map_some, update_self]
      rfl
  · rw [if_pos (show y.kernel.fs.view.tree.type i ≠ T_DIR from dir)]
    refine ends₃.iunlockput.bind fun k₄ ends₄ => ?_
    refine ends₄.endOp.bind fun k₅ ends₅ => ?_
    refine (sound.mid.kernel ends₅).step current (.of_ftable rfl) ⟨rfl, ?_⟩
    rw [show y.names.tree.resolve (y.inum cwd) path = some i from target]
    simp only
    rw [if_neg dir]
    rfl

theorem Sound.call_fork (sound : y.Sound n) (current : (y.proc p).cwd = some cwd) {np : Fin NPROC} :
    Meets (y.call p cwd (.fork np))
      (fun y' => y.Stepped n (p, .fork np) y') fun _ => True := by
  unfold System.call
  simp only
  by_cases unused : y.Unused np
  · rw [if_pos unused]
    have other : np ≠ p := by
      rintro rfl
      rw [unused.1] at current
      cases current
    unfold forkFiles
    refine (sound.mid.dupFds other unused.2).bind ?_
    rintro y₁ ⟨mid₁, kernel₁, cwds, keeps, hold₁⟩
    have user : 0 < y₁.users cwd := users_cwd ((cwds p).trans current)
    have none' : (y₁.proc np).cwd = none := (cwds np).trans unused.1
    obtain ⟨calm, within⟩ := mid₁.ends.within.idup user
    have live := mid₁.ends.within.held cwd user
    have more : ∀ s, (({ y₁ with kernel := y₁.kernel.idup cwd } : System).setProc np
        { y₁.proc np with cwd := some cwd }).users s = y₁.users s + if s = cwd then 1 else 0 := by
      intro s
      have change := ({ y₁ with kernel := y₁.kernel.idup cwd } : System).users_setProc np
        { y₁.proc np with cwd := some cwd } s
      have before : (y₁.proc np).uses s = 0 := by
        unfold UserProc.uses
        rw [none']
        exact if_neg (by rintro ⟨⟩)
      have after :
          ({ y₁.proc np with cwd := some cwd } : UserProc).uses s = if s = cwd then 1 else 0 := by
        refine if_congr ?_ rfl rfl
        show some cwd = some s ↔ s = cwd
        rw [Option.some.injEq, eq_comm]
      rw [after, show (({ y₁ with kernel := y₁.kernel.idup cwd } : System).proc np).uses s =
        0 from before, Nat.add_zero] at change
      exact change
    have lent := within.lend (calm.fs ▸ live) more
    rw [show update y.inum cwd (y.inum cwd) = y.inum from update_eq_self _ _] at lent
    refine Mid.step current (show Mid _ y.inum _ _ _ _ from ⟨⟨lent, ?_⟩, fun f => ?_, mid₁.closed⟩)
      keeps ⟨rfl, .inr ⟨?_, ?_⟩⟩
    · exact (congrArg (fun fs => y.kernel.fs.view.tree.Freed fs.view.tree) calm.fs).mpr
        mid₁.ends.freed
    · refine (mid₁.files f).trans ?_
      rw [← y₁.fds_setCwd np (some cwd) f]
      rfl
    · intro h mine
      cases h with
      | cwd q =>
        obtain rfl : q = np := mine
        show (y.proc q).cwd.map y.inum = none
        rw [unused.1]
        rfl
      | fd q fd =>
        obtain rfl : q = np := mine
        exact hold_of_none (unused.2 fd)
    · refine (({ y₁ with kernel := y₁.kernel.idup cwd } : System).hold_setCwd np (some cwd)).trans
        ?_
      rw [show ({ y₁ with kernel := y₁.kernel.idup cwd } : System).hold y.inum = y₁.hold y.inum
        from rfl, hold₁]
      refine update_holders (fun h => y.hold y.inum (h.of p)) ?_ fun _ => rfl
      show some (y.inum cwd) = (y.proc p).cwd.map y.inum
      rw [current]
      rfl
  · rw [if_neg unused]
    exact sound.mid.step current (.of_ftable rfl) ⟨rfl, .inl rfl⟩

theorem Sound.sysOpen {omode : BitVec 32} (sound : y.Sound n)
    (ranged : y.kernel.fs.view.tree.Ranged n) (current : (y.proc p).cwd = some cwd)
    (room : y.HasRoom (.open path omode)) :
    Meets (y.sysOpen p cwd path omode)
      (fun (_, y') => y.Stepped n (p, .open path omode) y') fun _ => True := by
  unfold System.sysOpen
  refine (sound.roomy room).spells.beginOp.bind fun k₁ spells₁ => ?_
  refine (spells₁.openInode path omode ranged (users_cwd current)).bind ?_
  rintro ⟨found, k₂⟩ ⟨t', r, opens, returned, reads⟩
  cases found with
  | none =>
    cases r with
    | some i => exact returned.elim
    | none =>
      refine (Kernel.Ends.endOp returned).bind fun k₃ ends₃ => ?_
      exact (sound.mid.kernel ends₃).step current (.of_ftable rfl) ⟨none,
        .inl rfl, by rintro i ⟨⟩, opens⟩
  | some s =>
    cases r with
    | none => exact returned.elim
    | some i =>
      have ends₂ : k₂.Ends ⟨y.users, y.inum, n⟩ [⟨s, i, true⟩] t' := returned
      have live : ∀ j, some i = some j → t'.Live j := by
        rintro j ⟨⟩
        exact ends₂.live (r := ⟨s, i, true⟩) List.mem_cons_self rfl
      have mid₂ := sound.mid.kernel ends₂
      -- Where there is no file or no descriptor, nothing is held.
      have fails : ∀ {y₃ : System}, y₃.Mid y.inum n [⟨s, i, true⟩] t' none →
        y₃.hold y.inum = y.hold y.inum →
          y.Keeps y₃ → Meets (y₃.openBad s) (fun (_, y') => y.Stepped n (p, .open path omode) y')
            fun _ => True := by
        intro y₃ mid₃ hold₃ keeps₃
        unfold openBad
        refine mid₃.ends.iunlockput.bind fun k₄ ends₄ => ?_
        refine ends₄.endOp.bind fun k₅ ends₅ => ?_
        exact (mid₃.kernel ends₅).step current keeps₃ ⟨some i, .inl hold₃, live, opens⟩
      simp only
      cases file : ({ y with kernel := k₂ } : System).filealloc with
      | none => exact fails mid₂ rfl (.of_ftable rfl)
      | some x =>
        obtain ⟨f, y₃⟩ := x
        obtain ⟨free, rfl⟩ := filealloc_eq file
        have free' : (y.ftable f).ref = 0 := free
        have gone : ∀ q fd, (y.proc q).ofile fd ≠ some f := by
          intro q fd opened
          have := fds_pos.mpr ⟨q, fd, opened⟩
          have count := sound.files f
          omega
        have mid₃ := mid₂.filealloc free
        have hold₃ : (({ y with kernel := k₂ } : System).setFile f
            { y.ftable f with ref := 1 }).hold y.inum = y.hold y.inum :=
          hold_setFile fun q fd opened => absurd opened (gone q fd)
        have keeps₃ :
            y.Keeps (({ y with kernel := k₂ } : System).setFile f { y.ftable f with ref := 1 }) :=
          .setFile fun inode => ⟨inode, rfl, rfl⟩
        simp only
        cases slot : (({ y with kernel := k₂ } : System).setFile f
            { y.ftable f with ref := 1 }).fdalloc p f with
        | none =>
          refine mid₃.fileclose.bind ?_
          rintro y₄ ⟨mid₄, _, hold₄, keeps₄⟩
          exact fails mid₄ (hold₄.trans hold₃) (keeps₃.trans keeps₄)
        | some x =>
          obtain ⟨fd, y₄⟩ := x
          obtain ⟨unused, rfl⟩ := fdalloc_eq slot
          have unused' : (y.proc p).ofile fd = none := unused
          have fresh := mid₃.fdalloc unused
          refine (fresh.ends.iunlock s).bind fun k₅ ends₅ => ?_
          refine ends₅.endOp.bind fun k₆ ends₆ => ?_
          have plain : (update y.ftable f { y.ftable f with ref := 1 } f).type = .none := by
            rw [update_self]
            exact sound.closed f free'
          have installs := fun g inode => mid₃.install (g := g) plain gone unused ends₆ inode
          refine Mid.step_of current (installs _ ⟨?_, ?_, ?_⟩).1 ends₂.within.update_num ?_
            ⟨some i, .inr ⟨i, fd, rfl, ?_, ?_⟩, live, opens⟩
          · rfl
          · rfl
          · rfl
          · refine Keeps.opened (keeps₃.trans (.of_ftable ?_)) rfl fun writable => ?_
            · rfl
            exact ends₆.not_dir fun dir => not_writable (reads i rfl dir) writable
          · exact hold_of_none unused'
          · refine (installs _ ⟨?_, ?_, ?_⟩).2.trans (congrArg (update · _ _) hold₃)
            all_goals rfl

/-- **Every call is a step** of the machine of names. -/
theorem Sound.step {e : Fin NPROC × NameOp} (sound : y.Sound n)
    (ranged : y.kernel.fs.view.tree.Ranged n) (room : y.HasRoom e.2) :
    Meets (y.step e) (fun y' => y.Stepped n e y') fun _ => True := by
  obtain ⟨p, op⟩ := e
  unfold System.step
  cases current : (y.proc p).cwd with
  | none =>
    simp only
    refine ⟨sound, ?_, fun _ _ _ => rfl, (Keeps.of_ftable rfl).guards⟩
    have idle : y.names.hold (.cwd p) = none := by
      show (y.proc p).cwd.map y.inum = none
      rw [current]
      rfl
    unfold Names.Step
    simp only [idle]
  | some cwd =>
    simp only
    cases op with
    | link old new => exact sound.call_link ranged current room
    | unlink path => exact sound.call_unlink ranged current
    | mkdir path => exact sound.call_mkdir ranged current room
    | mknod path major minor => exact sound.call_mknod ranged current room
    | «open» path omode => exact (sound.sysOpen ranged current room).bind fun _ good => good
    | close fd => exact sound.call_close current
    | chdir path => exact (sound.sysChdir ranged current).bind fun _ good => good
    | fork np => exact sound.call_fork current
    | exit => exact sound.call_exit current

end Steps

end System

end Xv6
