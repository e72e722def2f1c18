/-
**Reading and writing files within a call.**

`readi` of an inode in use changes nothing, since every block below its size is there. `writei` to a
file changes no name, and takes as many blocks as the file grows by; so do the turns of `filewrite`
together.
-/

import Xv6.Kernel.Edit
import Xv6.Kernel.File

namespace Xv6

open Lib

/-! ### What a write costs -/

/-- The blocks that `n` bytes written at `off` to inode `i` may take. -/
def View.writeCost (v : View) (i off n : Nat) : Nat :=
  if (v.din i).type = T_DEV then 0
  else growth (blocksOf (v.din i).size.toNat)
    (max (blocksOf (v.din i).size.toNat) (blocksOf (off + n)))

section Cost

variable {v v' : View} {i off m : Nat}

theorem View.writeCost_device (device : (v.din i).type = T_DEV) : v.writeCost i off m = 0 :=
  if_pos device

theorem View.writeCost_add (rest : Nat) (file : (v.din i).type ≠ T_DEV)
    (type : (v'.din i).type = (v.din i).type)
    (size : (v'.din i).size.toNat = max (v.din i).size.toNat (off + m)) :
    v.writeCost i off (m + rest) = v.writeCost i off m + v'.writeCost i (off + m) rest := by
  have larger : blocksOf (off + m) ≤ blocksOf (off + m + rest) := blocksOf_mono (by omega)
  have total : max (blocksOf (v.din i).size.toNat) (blocksOf (off + (m + rest))) =
      max (max (blocksOf (v.din i).size.toNat) (blocksOf (off + m)))
      (blocksOf (off + m + rest)) := by
    rw [← Nat.add_assoc, max_assoc, max_eq_right larger]
  unfold View.writeCost
  rw [if_neg file, if_neg file, if_neg (by rw [type]; exact file), size, blocksOf_max, total]
  exact growth_add (le_max_left _ _) (le_max_left _ _)

theorem View.writeCost_mono {n : Nat} (fewer : m ≤ n) :
    v.writeCost i off m ≤ v.writeCost i off n := by
  by_cases device : (v.din i).type = T_DEV
  · rw [View.writeCost_device device]
    exact Nat.zero_le _
  · unfold View.writeCost
    rw [if_neg device, if_neg device]
    have more : max (blocksOf (v.din i).size.toNat) (blocksOf (off + m)) ≤
        max (blocksOf (v.din i).size.toNat) (blocksOf (off + n)) :=
        max_le_max le_rfl (blocksOf_mono (by omega))
    rw [growth_add (le_max_left _ _) more]
    exact Nat.le_add_right _ _

end Cost

/-! ### Reading -/

theorem Fs.Locked.readi_same {s : Fs} {ip : Inode} (locked : s.Locked ip) {off n : Nat}
    (word : off < 2 ^ 32 ∧ n < 2 ^ 32) : ∃ r bytes, s.readi ip off n = .ok (r, bytes, ip, s) := by
  by_cases device : ip.din.type = T_DEV
  · unfold Fs.readi
    rw [if_pos device]
    split
    · exact ⟨_, _, rfl⟩
    · split <;> exact ⟨_, _, rfl⟩
  · by_cases outside : ip.din.size.toNat < off ∨ (off + n) % 2 ^ 32 < off
    · exact ⟨_, _, Fs.readi_outside device outside⟩
    · exact ⟨_, _, locked.readi_eq device (by omega) (by omega)⟩

namespace Kernel

variable {k k' : Kernel} {L : Ledger} {refs : List Ref} {room : Nat} {r : Ref} {s : Slot} {f : File}
  {src : List UInt8} {off n : Nat}

/-- `readi` of a cached inode succeeds and changes nothing. -/
theorem Coherent.readi_same (coherent : k.Coherent) (used : 0 < (k.icache s).ref)
    (valid : (k.icache s).valid = true) (word : off < 2 ^ 32 ∧ n < 2 ^ 32) :
    ∃ r bytes, k.readi s off n = .ok (r, bytes, k) := by
  obtain ⟨r, bytes, read⟩ := (coherent.synced s used valid).readi_same word
  exact ⟨r, bytes, readi_unchanged read⟩

theorem Within.readi (within : k.Within L refs room) (member : r ∈ refs) (loaded : r.loaded = true)
    (word : off < 2 ^ 32 ∧ n < 2 ^ 32) : ∃ res bytes, k.readi r.slot off n = .ok (res, bytes, k) :=
  within.coherent.readi_same (within.used member) ((within.points r member).2 loaded) word

theorem Within.borrowed (within : k.Within L [] room) (user : 0 < L.users s) :
    ∃ users, k.Within { L with users } [⟨s, L.num s, false⟩] room ∧
      ∀ {k' : Kernel} {room' : Nat} {loaded : Bool},
        k'.Within { L with users } [⟨s, L.num s, loaded⟩] room' → k'.fs.view.Live (L.num s) →
          k'.Within L [] room' := by
  have fewer :
      ∀ s', (L.users s' - if s' = s then 1 else 0) + (if s' = s then 1 else 0) = L.users s' := by
    intro s'
    split_ifs with same
    · subst same
      exact Nat.sub_add_cancel user
    · rw [Nat.sub_zero, Nat.add_zero]
  refine ⟨_, within.borrow fewer, fun {k' room' loaded} within' live => ?_⟩
  have lent := within'.lend live fun s' => (fewer s').symm
  rwa [show Function.update L.num s (L.num s) = L.num from Function.update_eq_self _ _] at lent

/-! ### Writing -/

/-- What a `writei` of `m` bytes at `off` to the file `i` did: nothing, or it wrote all of them. -/
inductive Filed (k k' : Kernel) (L : Ledger) (refs : List Ref) (room i off m : Nat) (res : Int) :
    Prop
  | kept (same : k' = k) (failed : (k.fs.view.din i).type ≠ T_DEV → res = -1)
  | stored (file : (k.fs.view.din i).type ≠ T_DEV) (bound : off + m ≤ MAXFILE * BSIZE)
      (within : k'.Within L refs (room - k.fs.view.writeCost i off m))
      (tree : k'.fs.view.tree = k.fs.view.tree)
      (size : (k'.fs.view.din i).size.toNat = max (k.fs.view.din i).size.toNat (off + m))

/-- `writei` to a file changes no name and draws what the file grows by. -/
theorem Within.writei (src : List UInt8) (off : Nat) (within : k.Within L refs room)
    (member : r ∈ refs) (loaded : r.loaded = true) (plain : ¬ k.fs.view.tree.Dir r.inum)
    (word : off < 2 ^ 32 ∧ src.length < 2 ^ 32)
    (enough : k.fs.view.writeCost r.inum off src.length ≤ room) :
    Meets (k.writei r.slot src off)
      (fun (res, k') => Filed k k' L refs room r.inum off src.length res) fun _ => True := by
  have number := (within.points r member).1
  have locked := within.locked member loaded
  have before := within.din member loaded
  refine .intro (fun (res, k') ok => ?_) fun _ _ => trivial
  obtain ⟨stored, rejected, accepted⟩ := (within.coherent.writei_meets (within.used member)
    ((within.points r member).2 loaded) src off word).of_ok ok
  by_cases fits : Fs.Fits (k.icache r.slot) off src.length
  · obtain ⟨_, taken, sectors, written⟩ := accepted fits
    have effect := written.effect
    rw [number] at effect
    have file : (k.fs.view.din r.inum).type ≠ T_DEV := by
      rw [before]
      exact fits.1
    have cost :
        growth (Fs.blocks (k.icache r.slot)) (Fs.blocksAfter (k.icache r.slot) off src.length) =
          k.fs.view.writeCost r.inum off src.length := by
      unfold View.writeCost
      rw [if_neg file, before]
      rfl
    have moves := written.moves locked fits.2.1 fits.2.2
    have count := written.count locked
    rw [cost] at moves count
    refine .stored file fits.2.2 ?_ (effect.tree_of_file plain) effect.size
    refine within.stored member loaded stored ((effect.live _).mpr (within.live member loaded))
      moves ?_ enough
    rw [effect.free, ← count, List.drop_left]
  · obtain ⟨same, failed⟩ := rejected fits
    refine .kept same ?_
    rw [before]
    exact failed

theorem toNat_advance {off : UInt32} {m : Nat} (bound : off.toNat + m < 2 ^ 32) :
    (off + UInt32.ofInt m).toNat = off.toNat + m := by
  have small : (UInt32.ofInt m).toNat = m := by
    unfold UInt32.ofInt
    rw [UInt32.toNat_ofNat']
    omega
  rw [UInt32.toNat_add, small, Nat.mod_eq_of_lt bound]

theorem Within.writeRound (src : List UInt8) (rest : Nat) (within : k.Within L [] room)
    (user : 0 < L.users f.ip) (inside : L.num f.ip < L.ninodes)
    (plain : ¬ k.fs.view.tree.Dir (L.num f.ip)) (some' : src ≠ []) (word : src.length < 2 ^ 31)
    (enough : k.fs.view.writeCost (L.num f.ip) f.off.toNat (src.length + rest) ≤ room) :
    Meets (k.writeRound f src) (fun (res, f', k') => f' = { f with off := f'.off } ∧
      k'.fs.view.tree = k.fs.view.tree ∧ ∃ room', k'.Within L [] room' ∧
        (res = src.length → k'.fs.view.writeCost (L.num f.ip) f'.off.toNat rest ≤ room')) fun _ =>
        True := by
  have positive := List.length_pos_iff.mpr some'
  have live : k.fs.view.tree.Live (L.num f.ip) := within.held f.ip user
  unfold Kernel.writeRound
  refine within.beginOp.bind ?_
  rintro k₁ ⟨within₁, view₁⟩
  obtain ⟨users, within₁', back⟩ := within₁.borrowed user
  refine ((within₁'.ilock inside).weaken).bind ?_
  rintro k₂ ⟨calm₂, within₂⟩
  have view₂ : k₂.fs.view = k.fs.view := by rw [calm₂.fs, view₁]
  rw [← view₂] at plain enough live ⊢
  have writes :=
    within₂.writei src f.off.toNat (r := Ref.load ⟨f.ip, L.num f.ip, false⟩) List.mem_cons_self
    rfl plain ⟨f.off.toNat_lt, by omega⟩ ((View.writeCost_mono (Nat.le_add_right _ _)).trans enough)
  refine writes.bind ?_
  rintro ⟨res, k₃⟩ filed
  change Filed k₂ k₃ _ _ room (L.num f.ip) f.off.toNat src.length res at filed
  dsimp only
  generalize advanced :
    (if 0 < res then { f with off := f.off + UInt32.ofInt res } else f : File) = f'
  have fields : f' = { f with off := f'.off } := by
    rw [← advanced]
    split <;> rfl
  -- The turn ends with `room'` left.
  suffices left : ∃ room', k₃.Within { L with users } [Ref.load ⟨f.ip, L.num f.ip, false⟩] room' ∧
      k₃.fs.view.tree = k₂.fs.view.tree ∧
      (res = src.length → k₃.fs.view.writeCost (L.num f.ip) f'.off.toNat rest ≤ room') by
    obtain ⟨room', within₃, tree₃, left⟩ := left
    refine ((within₃.iunlock _).weaken).bind ?_
    rintro k₄ ⟨calm₄, within₄⟩
    refine within₄.endOp_agrees.bind ?_
    rintro k₅ ⟨within₅, agrees⟩
    have tree₅ : k₅.fs.view.tree = k₂.fs.view.tree := by
      rw [agrees.tree within₄.apart.inside within₄.coherent.wellFormed, calm₄.fs, tree₃]
    have same : k₅.fs.view.din (L.num f.ip) = k₃.fs.view.din (L.num f.ip) := by
      rw [agrees.din, calm₄.fs]
    refine ⟨fields, tree₅, room', back within₅ ?_, fun all => ?_⟩
    · show k₅.fs.view.tree.Live (L.num f.ip)
      rw [tree₅]
      exact live
    · unfold View.writeCost at left ⊢
      rw [same]
      exact left all
  cases filed with
  | kept same failed =>
    subst same
    refine ⟨room, within₂, rfl, fun all => ?_⟩
    by_cases device : (k₃.fs.view.din (L.num f.ip)).type = T_DEV
    · rw [View.writeCost_device device]
      exact Nat.zero_le _
    · have negative : res = -1 := failed device
      omega
  | stored file bound within₃ tree₃ size =>
    refine ⟨_, within₃, tree₃, fun all => ?_⟩
    have behind : f'.off.toNat = f.off.toNat + src.length := by
      rw [← advanced, if_pos (by omega), all]
      exact toNat_advance (by rw [MAXFILE_eq, BSIZE_eq] at bound; omega)
    rw [View.writeCost_add rest file (congrFun (congrArg Tree.type tree₃) _) size] at enough
    rw [behind]
    exact Nat.le_sub_of_add_le' enough

/-- All chunks of `filewrite` together. -/
theorem Within.filewriteLoop {addr : Nat → UInt8} {i : Nat} (within : k.Within L [] room)
    (user : 0 < L.users f.ip) (inside : L.num f.ip < L.ninodes)
    (plain : ¬ k.fs.view.tree.Dir (L.num f.ip))
    (enough : k.fs.view.writeCost (L.num f.ip) f.off.toNat (n - i) ≤ room) :
    Meets (k.filewriteLoop f addr i n) (fun (_, f', k', _) => f' = { f with off := f'.off } ∧
      k'.fs.view.tree = k.fs.view.tree ∧ k'.Within L [] 0) fun _ => True := by
  induction left : n - i using Nat.strong_induction_on generalizing k f i room with
  | _ left' ih =>
    rw [Kernel.filewriteLoop]
    by_cases more : i < n
    · rw [if_pos more]
      have size : maxWrite = 6656 := rfl
      have length : ((List.range (min (n - i) maxWrite)).map fun j => addr (i + j)).length =
          min (n - i) maxWrite := by
        rw [List.length_map, List.length_range]
      have parts : min (n - i) maxWrite + (n - (i + min (n - i) maxWrite)) = n - i := by omega
      have turn := within.writeRound ((List.range (min (n - i) maxWrite)).map fun j => addr (i + j))
        (n - (i + min (n - i) maxWrite)) user inside plain
        (List.length_pos_iff.mp (by omega)) (by omega) (by rw [length, parts]; exact enough)
      refine turn.bind ?_
      rintro ⟨res, f₁, k₁⟩ ⟨fields, tree₁, room', within₁, next⟩
      have slot : f₁.ip = f.ip := by rw [fields]
      simp only
      split
      · exact ⟨fields, tree₁, within₁.fewer (Nat.zero_le _)⟩
      · split
        · trivial
        · next all =>
          have all' : res = min (n - i) maxWrite := not_not.mp all
          rw [length] at next
          have loop := ih (n - (i + min (n - i) maxWrite)) (by omega) within₁ (f := f₁)
            (by rw [slot]; exact user) (by rw [slot]; exact inside)
              (by rw [slot, tree₁]; exact plain)
            (by rw [slot]; exact next all') rfl
          refine loop.bind ?_
          rintro ⟨j, f₂, k₂, rounds⟩ ⟨fields₂, tree₂, within₂⟩
          refine ⟨?_, tree₂.trans tree₁, within₂⟩
          rw [fields₂, fields]
    · rw [if_neg more]
      exact ⟨rfl, rfl, within.fewer (Nat.zero_le _)⟩

end Kernel

end Xv6
