/-
**What a call owes: references, locks and operations.**

`Tally k₀ k refs locks ops` says how the kernel `k` differs from the kernel `k₀` at the start of a
call: the call holds the references `refs` and the locks of the slots `locks`, and has begun `ops`
operations of the log. Every function of the inode layer that returns keeps the account, whatever
the disk looks like.
-/

import Xv6.Kernel.Cache

namespace Xv6

open Lib Function

/-! ### Below the cache -/

namespace Fs

/-- The log counts the same operations. -/
def SameOps (s s' : Fs) : Prop := s'.log.outstanding = s.log.outstanding

variable {s s' : Fs} {ip ip' : Inode}

theorem SameOps.trans {s'' : Fs} (first : SameOps s s') (second : SameOps s' s'') : SameOps s s'' :=
  Eq.trans second first

theorem logWrite_ops (s : Fs) (sector : Nat) (data : Block) :
    Meets (s.logWrite sector data) s.SameOps fun _ => True := by
  unfold logWrite
  cases wrote : s.log.write (UInt32.ofNat sector) with
  | error why => trivial
  | ok log =>
    obtain ⟨_, _, rfl⟩ := Log.write_eq_ok.1 wrote
    rfl

theorem balloc_ops (s : Fs) : Meets s.balloc (fun x => s.SameOps x.2) fun _ => True := by
  unfold balloc
  cases s.findFree with
  | none => trivial
  | some place =>
    refine (logWrite_ops s _ _).bind fun s₁ first => ?_
    exact (logWrite_ops s₁ _ _).bind fun s₂ second => first.trans second

theorem bfree_ops (s : Fs) (b : Nat) : Meets (s.bfree b) s.SameOps fun _ => True := by
  unfold bfree
  simp only
  split
  · trivial
  · exact logWrite_ops s _ _

/-- The functions on a locked inode leave its references and its lock. -/
structure Alike (s : Fs) (ip : Inode) (s' : Fs) (ip' : Inode) : Prop where
  ref : ip'.ref = ip.ref
  busy : ip'.busy = ip.busy
  ops : s.SameOps s'

theorem Alike.refl (s : Fs) (ip : Inode) : s.Alike ip s ip := ⟨rfl, rfl, rfl⟩

theorem Alike.trans {s'' : Fs} {ip'' : Inode} (first : s.Alike ip s' ip')
    (second : s'.Alike ip' s'' ip'') : s.Alike ip s'' ip'' :=
  ⟨second.ref.trans first.ref, second.busy.trans first.busy, first.ops.trans second.ops⟩

theorem indirect_alike (s : Fs) (ip : Inode) :
    Meets (s.indirect ip) (fun x => s.Alike ip x.2.2 x.2.1) fun _ => True := by
  unfold indirect
  split
  · exact (balloc_ops s).bind fun x ops => ⟨rfl, rfl, ops⟩
  · exact .refl s ip

theorem entry_ops (s : Fs) (bp bn : Nat) :
    Meets (s.entry bp bn) (fun x => s.SameOps x.2) fun _ => True := by
  unfold entry
  simp only
  split
  · refine (balloc_ops s).bind fun x first => ?_
    exact (logWrite_ops x.2 _ _).bind fun s₂ second => first.trans second
  · rfl

theorem bmap_alike (s : Fs) (ip : Inode) (bn : Nat) :
    Meets (s.bmap ip bn) (fun x => s.Alike ip x.2.2 x.2.1) fun _ => True := by
  unfold bmap
  split
  · split
    · exact (balloc_ops s).bind fun x ops => ⟨rfl, rfl, ops⟩
    · exact .refl s ip
  · split
    · refine (indirect_alike s ip).bind fun x first => ?_
      exact (entry_ops x.2.2 _ _).bind fun y second =>
        ⟨first.ref, first.busy, first.ops.trans second⟩
    · trivial

theorem readiLoop_alike (s : Fs) (ip : Inode) (off n : Nat) :
    Meets (s.readiLoop ip off n) (fun x => s.Alike ip x.2.2 x.2.1) fun _ => True := by
  induction n using Nat.strongRecOn generalizing s ip off with
  | ind n ih =>
    unfold readiLoop
    split
    · exact .refl s ip
    · refine (bmap_alike s ip _).bind fun x first => ?_
      have inside : off % BSIZE < BSIZE := Nat.mod_lt _ (by decide)
      refine (ih (n - min n (BSIZE - off % BSIZE)) (by omega) x.2.2 x.2.1 _).bind fun y second => ?_
      exact first.trans second

theorem readi_alike (s : Fs) (ip : Inode) (off n : Nat) :
    Meets (s.readi ip off n) (fun x => s.Alike ip x.2.2.2 x.2.2.1) fun _ => True := by
  unfold readi
  split
  · split
    · exact .refl s ip
    · split
      · exact .refl s ip
      · exact .refl s ip
  · split
    · exact .refl s ip
    · exact (readiLoop_alike s ip off _).bind fun x alike => alike

theorem freeDirect_alike (s : Fs) (ip : Inode) :
    Meets (s.freeDirect ip) (fun x => s.Alike ip x.2 x.1) fun _ => True := by
  refine Meets.foldlM (fun _ (x : Inode × Fs) => s.Alike ip x.2 x.1)
    (.refl s ip) fun _ i _ x _ alike => ?_
  obtain ⟨ip', s'⟩ := x
  show Meets (if ip'.din.addr i ≠ 0 then _ else _) _ _
  split
  · exact (bfree_ops s' _).bind fun s'' ops => alike.trans ⟨rfl, rfl, ops⟩
  · exact alike

theorem freeEntries_ops (s : Fs) (bp : Block) :
    Meets (s.freeEntries bp) s.SameOps fun _ => True := by
  refine Meets.foldlM (fun _ s' => s.SameOps s') rfl fun _ j _ s' _ ops => ?_
  show Meets (if bp.word j ≠ 0 then _ else _) _ _
  split
  · exact (bfree_ops s' _).mono (fun s'' more => ops.trans more) fun _ _ => trivial
  · exact ops

theorem freeIndirect_alike (s : Fs) (ip : Inode) :
    Meets (s.freeIndirect ip) (fun x => s.Alike ip x.2 x.1) fun _ => True := by
  unfold freeIndirect
  split
  · refine (freeEntries_ops s _).bind fun s₁ first => ?_
    exact (bfree_ops s₁ _).bind fun s₂ second => ⟨rfl, rfl, first.trans second⟩
  · exact .refl s ip

theorem itrunc_alike (s : Fs) (ip : Inode) :
    Meets (s.itrunc ip) (fun x => s.Alike ip x.2 x.1) fun _ => True := by
  refine (freeDirect_alike s ip).bind fun x first => ?_
  refine (freeIndirect_alike x.2 x.1).bind fun y second => ?_
  refine (logWrite_ops y.2 _ _).bind fun s' ops => ?_
  exact (first.trans second).trans ⟨rfl, rfl, ops⟩

end Fs

/-! ### The cache -/

namespace Kernel

/-- **The account of a call.** -/
structure Tally (k₀ k : Kernel) (refs locks : List Slot) (ops : Int) : Prop where
  ref : ∀ s, (k.icache s).ref = (k₀.icache s).ref + refs.count s
  busy : ∀ s, (k.icache s).busy = true → (k₀.icache s).busy = true ∨ s ∈ locks
  ops : k.fs.log.outstanding = k₀.fs.log.outstanding + ops

variable {k₀ k : Kernel} {refs locks : List Slot} {ops : Int} {ip : Slot}

theorem Tally.refl (k : Kernel) : Tally k k [] [] 0 :=
  ⟨fun _ => (Int.add_zero _).symm, fun _ => .inl, (Int.add_zero _).symm⟩

/-- One slot changes, and the account with it. -/
theorem Tally.replace (tally : Tally k₀ k refs locks ops) (fs : Fs) {node : Inode}
    {refs' locks' : List Slot} {ops' : Int} (ref : node.ref = (k₀.icache ip).ref + refs'.count ip)
    (others : ∀ s, s ≠ ip → refs'.count s = refs.count s ∧ (s ∈ locks → s ∈ locks'))
    (busy : node.busy = true → (k₀.icache ip).busy = true ∨ ip ∈ locks')
    (log : fs.log.outstanding = k₀.fs.log.outstanding + ops') :
    Tally k₀ { k.setInode ip node with fs } refs' locks' ops' := by
  refine ⟨fun s => ?_, fun s is => ?_, log⟩
  · by_cases same : s = ip
    · subst same
      show (update k.icache s node s).ref = _
      rw [update_self, ref]
    · show (update k.icache ip node s).ref = _
      rw [update_of_ne same, tally.ref, (others s same).1]
  · by_cases same : s = ip
    · subst same
      have is : (update k.icache s node s).busy = true := is
      rw [update_self] at is
      exact busy is
    · have is : (update k.icache ip node s).busy = true := is
      rw [update_of_ne same] at is
      exact (tally.busy s is).imp_right (others s same).2

theorem Tally.alike (tally : Tally k₀ k refs locks ops) {node : Inode} {fs : Fs}
    (alike : k.fs.Alike (k.icache ip) fs node) :
    Tally k₀ { k.setInode ip node with fs } refs locks ops :=
  tally.replace fs (alike.ref.trans (tally.ref ip)) (fun _ _ => ⟨rfl, id⟩)
    (fun is => tally.busy ip (alike.busy ▸ is)) (Eq.trans alike.ops tally.ops)

theorem Tally.readi (tally : Tally k₀ k refs locks ops) (ip : Slot) (off n : Nat) :
    Meets (k.readi ip off n) (fun x => Tally k₀ x.2.2 refs locks ops) fun _ => True := by
  unfold Kernel.readi
  refine (Halt.lift_meets ((Fs.readi_alike k.fs (k.icache ip) off n).weaken)).bind ?_
  exact fun x alike => tally.alike alike

theorem count_cons_ne {s : Slot} (other : s ≠ ip) (refs : List Slot) :
    (ip :: refs).count s = refs.count s :=
  List.count_cons_of_ne (Ne.symm other)

theorem Tally.idup (tally : Tally k₀ k refs locks ops) (ip : Slot) :
    Tally k₀ (k.idup ip) (ip :: refs) locks ops := by
  refine tally.replace k.fs ?_ (fun s other => ⟨count_cons_ne other refs, id⟩)
    (tally.busy ip) tally.ops
  have before := tally.ref ip
  rw [List.count_cons_self]
  show (k.icache ip).ref + 1 = _
  omega

theorem Tally.iget (tally : Tally k₀ k refs locks ops) (dev inum : Nat) :
    Meets (k.iget dev inum) (fun x => Tally k₀ x.2 (x.1 :: refs) locks ops) fun _ => True := by
  unfold Kernel.iget
  cases k.cached dev inum with
  | some ip => exact tally.idup ip
  | none =>
    cases found : k.emptySlot with
    | none => trivial
    | some ip =>
      have unused : (k.icache ip).ref = 0 := by
        have is := List.find?_some (p := fun ip => decide ((k.icache ip).ref = 0)) found
        exact of_decide_eq_true is
      have before := tally.ref ip
      refine tally.replace k.fs ?_ (fun s other => ⟨count_cons_ne other refs, id⟩) nofun tally.ops
      rw [List.count_cons_self]
      show (1 : Int) = _
      omega

theorem Tally.ilock (tally : Tally k₀ k refs locks ops) (ip : Slot) :
    Meets (k.ilock ip) (fun k' => Tally k₀ k' refs (ip :: locks) ops) fun _ => True := by
  have locked : ∀ {node : Inode}, node.ref = (k.icache ip).ref →
      Tally k₀ { k.setInode ip node with fs := k.fs } refs (ip :: locks) ops := fun same =>
    tally.replace k.fs (same.trans (tally.ref ip)) (fun _ _ => ⟨rfl, List.mem_cons_of_mem ip⟩)
      (fun _ => .inr List.mem_cons_self) tally.ops
  unfold Kernel.ilock
  simp only
  split
  · trivial
  split
  · trivial
  split
  · exact locked rfl
  split
  · trivial
  · exact locked rfl

theorem Tally.iunlock (tally : Tally k₀ k refs (ip :: locks) ops) :
    Meets (k.iunlock ip) (fun k' => Tally k₀ k' refs locks ops) fun _ => True := by
  unfold Kernel.iunlock
  simp only
  split
  · trivial
  · refine tally.replace k.fs (tally.ref ip) (fun s other => ⟨rfl, fun mem => ?_⟩) nofun tally.ops
    exact (List.mem_cons.1 mem).resolve_left other

theorem Tally.unref (tally : Tally k₀ k (ip :: refs) locks ops) :
    Tally k₀ (k.unref ip) refs locks ops := by
  refine tally.replace k.fs ?_ (fun s other => ⟨(count_cons_ne other refs).symm, id⟩)
    (tally.busy ip) tally.ops
  have before := tally.ref ip
  rw [List.count_cons_self] at before
  show (k.icache ip).ref - 1 = _
  omega

theorem Tally.ifree (tally : Tally k₀ k refs locks ops) (ip : Slot) :
    Meets (k.ifree ip) (fun k' => Tally k₀ k' refs locks ops) fun _ => True := by
  unfold Kernel.ifree
  refine (Halt.lift_meets ((Fs.itrunc_alike k.fs (k.icache ip)).weaken)).bind ?_
  intro x alike
  refine (Halt.lift_meets ((Fs.logWrite_ops x.2 _ _).weaken)).bind fun fs more => ?_
  exact tally.replace fs (alike.ref.trans (tally.ref ip)) (fun _ _ => ⟨rfl, id⟩) nofun
    (Eq.trans (alike.ops.trans more) tally.ops)

/-- `iput` gives one reference back. -/
theorem Tally.iput (tally : Tally k₀ k (ip :: refs) locks ops) :
    Meets (k.iput ip) (fun k' => Tally k₀ k' refs locks ops) fun _ => True := by
  unfold Kernel.iput
  simp only
  split
  · split
    · trivial
    · exact (tally.ifree ip).bind fun k' freed => freed.unref
  · exact tally.unref

theorem Tally.iunlockput (tally : Tally k₀ k (ip :: refs) (ip :: locks) ops) :
    Meets (k.iunlockput ip) (fun k' => Tally k₀ k' refs locks ops) fun _ => True :=
  tally.iunlock.bind fun _ unlocked => unlocked.iput

theorem Tally.iupdate (tally : Tally k₀ k refs locks ops) (ip : Slot) (din : Dinode) :
    Meets (k.iupdate ip din) (fun k' => Tally k₀ k' refs locks ops) fun _ => True := by
  unfold Kernel.iupdate
  refine (Halt.lift_meets ((Fs.logWrite_ops k.fs _ _).weaken)).bind fun fs same => ?_
  exact tally.alike ⟨rfl, rfl, same⟩

theorem Tally.beginOp (tally : Tally k₀ k refs locks ops) :
    Meets k.beginOp (fun k' => Tally k₀ k' refs locks (ops + 1)) fun _ => True := by
  unfold Kernel.beginOp Fs.beginOp Log.beginOp
  split
  · trivial
  · next fs begun =>
      split at begun
      · cases begun
      · split at begun
        · cases begun
        · cases begun
          refine ⟨tally.ref, tally.busy, ?_⟩
          show k.fs.log.outstanding + 1 = _
          rw [tally.ops, Int.add_assoc]

theorem Tally.endOp (tally : Tally k₀ k refs locks (ops + 1)) :
    Meets k.endOp (fun k' => Tally k₀ k' refs locks ops) fun _ => True := by
  have fewer : ∀ {fs : Fs}, fs.log.outstanding = k.fs.log.outstanding - 1 →
    Tally k₀ { k with fs } refs locks ops := by
    intro fs counts
    refine ⟨tally.ref, tally.busy, ?_⟩
    have before := tally.ops
    show fs.log.outstanding = _
    omega
  unfold Kernel.endOp Fs.endOp Log.endOp
  simp only
  split
  · trivial
  split
  · refine fewer ?_
    show (Log.commit _ _).1.outstanding = _
    rw [Log.commit_fst]
  · exact fewer rfl

/-! ### Directories and paths -/

theorem Tally.readDirent (tally : Tally k₀ k refs locks ops) (dp : Slot) (why : Panic) (off : Nat) :
    Meets (k.readDirent dp why off) (fun x => Tally k₀ x.2 refs locks ops) fun _ => True := by
  unfold Kernel.readDirent
  refine (tally.readi dp off DIRENTSIZE).bind fun x read => ?_
  show Meets (if x.1 ≠ DIRENTSIZE then _ else _) _ _
  split
  · trivial
  · exact read

theorem Tally.scan (tally : Tally k₀ k refs locks ops) (why : Panic) (stop : Dirent → Bool)
    (dp : Slot) (offs : List Nat) :
    Meets (scan why stop dp offs k) (fun x => Tally k₀ x.2 refs locks ops) fun _ => True := by
  induction offs generalizing k with
  | nil => exact tally
  | cons off rest ih =>
    unfold Kernel.scan
    refine (tally.readDirent dp why off).bind fun x read => ?_
    show Meets (if stop x.1 then _ else _) _ _
    split
    · exact read
    · exact ih read

/-- The references after a lookup. -/
def found {α : Type} (refs : List Slot) : Option (Slot × α) → List Slot
  | none => refs
  | some (ip, _) => ip :: refs

theorem Tally.dirlookup (tally : Tally k₀ k refs locks ops) (dp : Slot) (name : List UInt8) :
    Meets (k.dirlookup dp name)
      (fun x => Tally k₀ x.2 (found refs x.1) locks ops) fun _ => True := by
  unfold Kernel.dirlookup
  split
  · trivial
  · refine (tally.scan .dirlinkRead (matchesName name) dp _).bind fun x scanned => ?_
    obtain ⟨entry, k'⟩ := x
    cases entry with
    | none => exact scanned
    | some entry => exact (scanned.iget _ _).bind fun y got => got

theorem Tally.namexLoop (tally : Tally k₀ k (ip :: refs) locks ops) (parent : Bool)
    (path name : List UInt8) :
    Meets (k.namexLoop ip parent path name)
      (fun x => Tally k₀ x.2 (found refs x.1) locks ops) fun _ => True := by
  induction len : path.length using Nat.strongRecOn generalizing k ip path name with
  | ind n ih =>
    unfold Kernel.namexLoop
    split
    · split
      · exact tally.iput.bind fun k' put => put
      · exact tally
    · next element rest next =>
        refine (tally.ilock ip).bind fun k₁ locked => ?_
        split
        · exact locked.iunlockput.bind fun k' put => put
        split
        · exact locked.iunlock.bind fun k' unlocked => unlocked
        · refine (locked.dirlookup ip element).bind fun x looked => ?_
          obtain ⟨entry, k₂⟩ := x
          cases entry with
          | none => exact looked.iunlockput.bind fun k' put => put
          | some entry =>
            have swapped : Tally k₀ k₂ (ip :: entry.1 :: refs) (ip :: locks) ops :=
              { looked with
                ref :=
                fun s => by rw [looked.ref, found, (List.Perm.swap ip entry.1 refs).count_eq] }
            refine swapped.iunlockput.bind fun k₃ put => ?_
            exact ih rest.length (len ▸ length_skipelem next) put rest element rfl

/-- A lookup that returns keeps one reference, to what it found, and no lock. -/
theorem Tally.namex (tally : Tally k₀ k refs locks ops) (cwd : Slot) (path : List UInt8)
    (parent : Bool) :
    Meets (k.namex cwd path parent)
      (fun x => Tally k₀ x.2 (found refs x.1) locks ops) fun _ => True := by
  unfold Kernel.namex
  split
  · exact (tally.iget ROOTDEV ROOTINO).bind fun x got => got.namexLoop parent path []
  · exact (tally.idup cwd).namexLoop parent path []

end Kernel

end Xv6
