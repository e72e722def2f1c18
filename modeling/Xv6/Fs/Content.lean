/-
**`readi` and `writei`: an inode is an array of bytes.**

`View.contents v i` is the content of inode `i`, a list of `size` bytes. `Holds.readi_eq`: `readi`
copies a slice of it out. `Holds.writei_meets`: `writei` splices bytes into it, growing it at the
end where needed, keeps the file system well formed and leaves every other inode's content alone.
-/

import Xv6.Fs.Bmap

namespace Xv6

open Lib

namespace View

/-- Byte `p` of inode `i`. -/
def byteAt (v : View) (i p : Nat) : UInt8 := (v.data (v.slot i (p / BSIZE))).byte (p % BSIZE)

/-- **The content of inode `i`.** -/
def contents (v : View) (i : Nat) : List UInt8 :=
  (List.range (v.din i).size.toNat).map (v.byteAt i)

theorem length_contents (v : View) (i : Nat) : (v.contents i).length = (v.din i).size.toNat := by
  unfold contents
  rw [List.length_map, List.length_range]

theorem getElem?_contents (v : View) (i p : Nat) :
    (v.contents i)[p]? = if p < (v.din i).size.toNat then some (v.byteAt i p) else none := by
  unfold contents
  rw [List.getElem?_map]
  by_cases inside : p < (v.din i).size.toNat
  · rw [if_pos inside, List.getElem?_range inside]
    rfl
  · rw [if_neg inside, List.getElem?_eq_none (by rw [List.length_range]; omega)]
    rfl

theorem contents_of_le {v : View} {i : Nat} (small : (v.din i).size.toNat ≤ BSIZE) :
    v.contents i = (v.data (v.slot i 0)).data.take (v.din i).size.toNat := by
  refine List.ext_getElem? fun p => ?_
  rw [getElem?_contents, List.getElem?_take]
  by_cases inside : p < (v.din i).size.toNat
  · have low : p < BSIZE := inside.trans_le small
    have here : p < (v.data (v.slot i 0)).data.length := by
      rw [(v.data (v.slot i 0)).size]
      exact low
    rw [if_pos inside, if_pos inside, byteAt, Nat.div_eq_of_lt low,
      Nat.mod_eq_of_lt low, Block.byte, List.getElem?_eq_getElem here, Option.getD_some]
  · rw [if_neg inside, if_neg inside]

theorem slice_contents {v : View} {i off n : Nat} (inside : off + n ≤ (v.din i).size.toNat) :
    slice (v.contents i) off n = (List.range' off n).map (v.byteAt i) := by
  apply List.ext_getElem?
  intro p
  rw [getElem?_slice, getElem?_contents, List.getElem?_map]
  by_cases below : p < n
  · rw [if_pos below, if_pos (by omega), List.getElem?_range' below, Nat.one_mul]
    rfl
  · simp [below]

/-- The content of a file is in its size, its slots and their blocks. -/
theorem contents_congr {v v' : View} {i : Nat} (size : (v'.din i).size = (v.din i).size)
    (slots : ∀ k, k < blocksOf (v.din i).size.toNat → v'.slot i k = v.slot i k ∧
      v'.data (v.slot i k) = v.data (v.slot i k)) : v'.contents i = v.contents i := by
  unfold contents
  rw [size]
  apply List.map_congr_left
  intro p member
  rw [List.mem_range] at member
  have below : p / BSIZE < blocksOf (v.din i).size.toNat := by
    rw [Nat.div_lt_iff_lt_mul (by decide)]
    exact member.trans_le (blocksOf_le.mp le_rfl)
  unfold byteAt
  rw [(slots _ below).1, (slots _ below).2]

section Write

variable {v : View} {i c k : Nat}

theorem Edits.write (owned : v.Owned) (live : v.Live i) (shaped : v.Shaped i c) (below : k < c)
    (block : Block) : Edits v (v.setData (v.slot i k) block) i c c [] := by
  have short : k < MAXFILE := below.trans_le shaped.bound
  have some' := (shaped.slots k short.le).mpr (.inl below)
  have slots : ∀ j l, v.Live j → (v.setData (v.slot i k) block).slot j l = v.slot j l := by
    intro j l alive
    refine slotOf_congr (fun indirect => data_setData_of_ne ?_ _ _) l
    intro shared
    exact short.ne' (owned.slot_inj (k := MAXFILE) alive live indirect shared).2
  have own : (v.setData (v.slot i k) block).own = v.own := by
    funext place
    unfold View.own
    by_cases alive : v.Live place.1
    · rw [slots place.1 place.2 alive]
      rfl
    · rw [if_neg fun both => alive both.1, if_neg fun both => alive both.1]
  exact {
    le := le_rfl
    sb := rfl
    owned := ⟨by rw [own]; exact owned.owns, by rw [own]; exact owned.range, owned.metaUsed⟩
    shaped := ⟨shaped.bound, fun l inside => by rw [slots i l live]; exact shaped.slots l inside⟩
    free := rfl
    count := (growth_self c).symm
    inode := rfl
    others := fun _ _ => rfl
    kept := fun l _ => slots i l live
    fresh := fun l none' some'' => (some'' ((slots i l live).trans none')).elim
    otherSlots := fun j _ alive l => slots j l alive
    otherData := fun j other alive l _ owns => by
      refine data_setData_of_ne ?_ _ _
      intro shared
      exact other (owned.slot_inj alive live owns shared).1 }

/-- What a write into one block changes of the bytes of the file. -/
theorem byteAt_write (owned : v.Owned) (live : v.Live i) (shaped : v.Shaped i c) {off p : Nat}
    {src : List UInt8} (below : off / BSIZE < c) (fits : off % BSIZE + src.length ≤ BSIZE)
    (inside : p / BSIZE < c) :
    (v.setData (v.slot i (off / BSIZE))
        ((v.data (v.slot i (off / BSIZE))).write (off % BSIZE) src)).byteAt i p =
      if off ≤ p ∧ p < off + src.length then (src[p - off]?).getD 0 else v.byteAt i p := by
  have edit := Edits.write owned live shaped below
    ((v.data (v.slot i (off / BSIZE))).write (off % BSIZE) src)
  have atOff := Nat.div_add_mod off BSIZE
  have atP := Nat.div_add_mod p BSIZE
  have modOff := Nat.mod_lt off (show BSIZE > 0 by decide)
  have modP := Nat.mod_lt p (show BSIZE > 0 by decide)
  unfold byteAt
  rw [edit.slot_of_lt shaped inside]
  by_cases same : p / BSIZE = off / BSIZE
  · rw [same, data_setData_self, Block.byte_write fits]
    rw [same] at atP
    by_cases within : off ≤ p ∧ p < off + src.length
    · rw [if_pos within, if_pos (by omega)]
      congr 2
      omega
    · rw [if_neg within, if_neg (by omega)]
  · have apart : v.slot i (p / BSIZE) ≠ v.slot i (off / BSIZE) := fun shared =>
      same (owned.slot_inj live live ((shaped.slots _ (inside.le.trans shaped.bound)).mpr
        (.inl inside)) shared).2
    rw [data_setData_of_ne apart, if_neg]
    -- A position in another block is not one of the bytes written.
    rintro ⟨lower, upper⟩
    apply same
    rw [BSIZE_eq] at *
    omega

end Write

/-! ### Patches -/

/-- The bytes `src` are at `off` in inode `i`, and the others of its first `c` blocks are as
before. -/
def Patched (v v' : View) (i c off : Nat) (src : List UInt8) : Prop :=
  ∀ p, p < max (c * BSIZE) (off + src.length) → v'.byteAt i p =
    if off ≤ p ∧ p < off + src.length then (src[p - off]?).getD 0 else v.byteAt i p

section Patched

variable {v m v' : View} {i c c' off : Nat} {src first second : List UInt8} {taken : List Nat}

theorem Patched.nil (v : View) (i c off : Nat) : v.Patched v i c off [] := by
  intro p _
  rw [if_neg]
  simp only [List.length_nil]
  omega

theorem Patched.of_write (edits : Edits v m i c (max c (off / BSIZE + 1)) taken)
    (shaped : v.Shaped i c) (live : m.Live i)
    (data : ∀ k, k < c → m.data (v.slot i k) = v.data (v.slot i k)) (next : off ≤ c * BSIZE)
    (fits : off % BSIZE + src.length ≤ BSIZE) :
    v.Patched (m.setData (m.slot i (off / BSIZE))
      ((m.data (m.slot i (off / BSIZE))).write (off % BSIZE) src)) i c off src := by
  intro p inside
  have atOff := Nat.div_add_mod off BSIZE
  have inside' : p / BSIZE < max c (off / BSIZE + 1) := by
    rw [Nat.div_lt_iff_lt_mul (by decide)]
    rw [BSIZE_eq] at *
    omega
  rw [byteAt_write edits.owned live edits.shaped (by omega) fits inside']
  by_cases within : off ≤ p ∧ p < off + src.length
  · rw [if_pos within, if_pos within]
  · rw [if_neg within, if_neg within]
    have old : p / BSIZE < c := by
      rw [Nat.div_lt_iff_lt_mul (by decide)]
      omega
    unfold byteAt
    rw [edits.slot_of_lt shaped old, data _ old]

/-- Adjacent patches make one patch. -/
theorem Patched.trans (one : v.Patched m i c off first)
    (two : m.Patched v' i c' (off + first.length) second) (wider : c ≤ c') :
    v.Patched v' i c off (first ++ second) := by
  intro p inside
  have wider' : c * BSIZE ≤ c' * BSIZE := Nat.mul_le_mul_right _ wider
  rw [List.length_append] at *
  rw [two p (by omega)]
  by_cases second' : off + first.length ≤ p ∧ p < off + first.length + second.length
  · rw [if_pos second', if_pos (by omega), List.getElem?_append_right (by omega)]
    congr 2
    omega
  · rw [if_neg second', one p (by omega)]
    by_cases first' : off ≤ p ∧ p < off + first.length
    · rw [if_pos first', if_pos (by omega), List.getElem?_append_left (by omega)]
    · rw [if_neg first', if_neg (by omega)]

/-- **A patched inode of the right size** has the bytes spliced into its content. -/
theorem Patched.contents (patched : v.Patched v' i c off src)
    (fits : (v.din i).size.toNat ≤ c * BSIZE) (inside : off ≤ (v.din i).size.toNat)
    (size : (v'.din i).size.toNat = max (v.din i).size.toNat (off + src.length)) :
    v'.contents i = splice (v.contents i) off src := by
  apply List.ext_getElem?
  intro p
  rw [getElem?_contents, size, getElem?_splice (by rw [length_contents]; exact inside),
    getElem?_contents]
  by_cases below : p < max (v.din i).size.toNat (off + src.length)
  · rw [if_pos below, patched p (by omega)]
    by_cases early : p < off
    · rw [if_pos early, if_neg (by omega), if_pos (by omega)]
    · rw [if_neg early]
      by_cases within : p < off + src.length
      · have bound : p - off < src.length := by omega
        rw [if_pos within, if_pos (by omega)]
        simp [bound]
      · rw [if_neg within, if_neg (by omega), if_pos (by omega)]
  · rw [if_neg below, if_neg (by omega), if_neg (by omega), if_neg (by omega)]

end Patched

/-! ### A file rewritten -/

/-- **The effect of a write on a well-formed file system**: `src` is spliced into the content of
inode `i` at `off`, the blocks `taken` came from the free list, and the other inodes are as
before. -/
structure Rewritten (v v' : View) (i off : Nat) (src : List UInt8) (taken : List Nat) : Prop where
  wellFormed : v'.WellFormed
  sb : v'.sb = v.sb
  fields : v'.din i = { v.din i with size := (v'.din i).size, addrs := (v'.din i).addrs }
  size : (v'.din i).size.toNat = max (v.din i).size.toNat (off + src.length)
  contents : v'.contents i = splice (v.contents i) off src
  otherDins : ∀ j, j ≠ i → v'.din j = v.din j
  otherContents : ∀ j, j ≠ i → v.Live j → v'.contents j = v.contents j
  free : v.free = taken ++ v'.free
  count : taken.length =
    growth (blocksOf (v.din i).size.toNat) (blocksOf (max (v.din i).size.toNat (off + src.length)))
  slots : ∀ j k, v.Live j →
    v'.slot j k = v.slot j k ∨ j = i ∧ v.slot j k = 0 ∧ v'.slot j k ∈ taken

section Rewritten

variable {v m v' : View} {i c off : Nat} {src : List UInt8} {taken : List Nat} {d : Dinode}

theorem Rewritten.live (rewritten : v.Rewritten v' i off src taken) (j : Nat) :
    v'.Live j ↔ v.Live j := by
  unfold Live
  by_cases same : j = i
  · rw [same, rewritten.fields]
  · rw [rewritten.otherDins j same]

/-- A patched inode with its new size is a rewritten file. -/
theorem Rewritten.of_edits (wellFormed : v.WellFormed) (live : v.Live i)
    (inside : off ≤ (v.din i).size.toNat) (bound : off + src.length ≤ MAXFILE * BSIZE)
    (edits : Edits v m i (blocksOf (v.din i).size.toNat)
      (max (blocksOf (v.din i).size.toNat) (blocksOf (off + src.length))) taken)
    (patched : v.Patched m i (blocksOf (v.din i).size.toNat) off src)
    (fields : d = { m.din i with size := d.size })
    (size : d.size.toNat = max (v.din i).size.toNat (off + src.length)) :
    v.Rewritten (m.setDin i d) i off src taken := by
  have addrs : d.addrs = (m.din i).addrs := by rw [fields]
  have type : d.type = 0 ↔ (m.din i).type = 0 := by rw [fields]
  have here : (m.setDin i d).din i = d := din_setDin_self ..
  have otherDins : ∀ j, j ≠ i → (m.setDin i d).din j = v.din j := by
    intro j other
    rw [din_setDin_of_ne other, edits.others j other]
  have alive : ∀ j, (m.setDin i d).Live j → v.Live j := fun j live' =>
    (edits.live j).mp ((live_setDin type j).mp live')
  have otherSlots : ∀ j, j ≠ i → v.Live j → ∀ k, (m.setDin i d).slot j k = v.slot j k := by
    intro j other live' k
    rw [slot_setDin addrs, edits.otherSlots j other live']
  have small := wellFormed.small i live
  refine ⟨⟨edits.owned.setDin addrs type, ?_, ?_⟩, edits.sb, ?_, ?_, ?_, otherDins, ?_,
    edits.free, ?_, ?_⟩
  · intro j live'
    by_cases same : j = i
    · rw [same, here, size]
      omega
    · rw [otherDins j same]
      exact wellFormed.small j (alive j live')
  · intro j live'
    by_cases same : j = i
    · subst same
      rw [here, size, blocksOf_max]
      exact edits.shaped.setDin addrs
    · have shaped := wellFormed.shaped j (alive j live')
      rw [otherDins j same]
      refine ⟨shaped.bound, fun k inner => ?_⟩
      rw [otherSlots j same (alive j live')]
      exact shaped.slots k inner
  · rw [here, fields, edits.inode]
  · rw [here, size]
  · refine Patched.contents (c := blocksOf (v.din i).size.toNat) ?_ (blocksOf_le.mp le_rfl) inside
      (by rw [here, size])
    intro p below
    rw [← patched p below]
    unfold byteAt
    rw [slot_setDin addrs]
    rfl
  · intro j other live'
    have shaped := wellFormed.shaped j live'
    refine contents_congr (by rw [otherDins j other]) fun k below =>
      ⟨otherSlots j other live' k, ?_⟩
    have short := below.trans_le shaped.bound
    exact edits.otherData j other live' k short ((shaped.slots k short.le).mpr (.inl below))
  · rw [edits.count, blocksOf_max]
  · intro j k live'
    by_cases same : j = i
    · subst same
      rw [slot_setDin addrs]
      by_cases none' : v.slot j k = 0
      · by_cases some' : m.slot j k = 0
        · exact .inl (some'.trans none'.symm)
        · exact .inr ⟨rfl, none', edits.fresh k none' some'⟩
      · exact .inl (edits.kept k none')
    · exact .inl (otherSlots j same live' k)

end Rewritten

/-! ### A new inode -/

section NewInode

variable {v : View} {i : Nat} {d : Dinode}

theorem slotOf_none (v : View) (none' : ∀ k, d.addr k = 0) (k : Nat) : v.slotOf d k = 0 := by
  unfold slotOf
  rw [none', none']
  simp

theorem slot_setDin_none (none' : ∀ k, d.addr k = 0) (k : Nat) : (v.setDin i d).slot i k = 0 := by
  unfold slot
  rw [din_setDin_self]
  exact slotOf_none _ none' k

theorem live_setDin_of_ne {j : Nat} (other : j ≠ i) (v : View) (d : Dinode) :
    (v.setDin i d).Live j ↔ v.Live j := by
  unfold Live
  rw [din_setDin_of_ne other]

theorem own_addInode (dead : ¬ v.Live i) (none' : ∀ k, d.addr k = 0) :
    (v.setDin i d).own = v.own := by
  funext place
  unfold View.own
  by_cases same : place.1 = i
  · rw [same, slot_setDin_none none', if_neg (by simp), if_neg fun both => dead both.1]
  · simp only [slot_setDin_of_ne same, live_setDin_of_ne same]

/-- A new empty inode keeps the file system well formed. -/
theorem WellFormed.addInode (wellFormed : v.WellFormed) (dead : ¬ v.Live i)
    (none' : ∀ k, d.addr k = 0) (empty : d.size = 0) : (v.setDin i d).WellFormed := by
  have own := own_addInode dead none'
  refine ⟨⟨by rw [own]; exact wellFormed.owned.owns, by rw [own]; exact wellFormed.owned.range,
    wellFormed.owned.metaUsed⟩, ?_, ?_⟩
  · intro j alive
    by_cases same : j = i
    · rw [same, din_setDin_self, empty]
      exact Nat.zero_le _
    · rw [din_setDin_of_ne same]
      exact wellFormed.small j ((live_setDin_of_ne same v d).mp alive)
  · intro j alive
    by_cases same : j = i
    · subst same
      rw [din_setDin_self, empty]
      refine ⟨Nat.zero_le _, fun k inside => ?_⟩
      rw [slot_setDin_none none']
      simp [blocksOf, BSIZE]
    · have shaped := wellFormed.shaped j ((live_setDin_of_ne same v d).mp alive)
      rw [din_setDin_of_ne same]
      refine ⟨shaped.bound, fun k inside => ?_⟩
      rw [slot_setDin_of_ne same]
      exact shaped.slots k inside

theorem contents_setDin_of_ne {j : Nat} (other : j ≠ i) :
    (v.setDin i d).contents j = v.contents j := by
  refine contents_congr (by rw [din_setDin_of_ne other]) fun k _ =>
    ⟨slot_setDin_of_ne other _ _ k, rfl⟩

end NewInode

end View

namespace Fs

section Read

variable {s : Fs} {ip : Inode} {c : Nat}

theorem Holds.blk_slot (holds : Holds s ip c) {k : Nat} (below : k < c) :
    s.blk ((s.viewOf ip).slot ip.inum k) = (s.viewOf ip).data ((s.viewOf ip).slot ip.inum k) :=
  (view_data_of_le (holds.slot_range (holds.slot_data below).2)).symm

/-- The loop of `readi` reads byte by byte what the file holds. -/
theorem Holds.readiLoop_eq (holds : Holds s ip c) {off n : Nat} (inside : off + n ≤ c * BSIZE) :
    s.readiLoop ip off n =
      .ok ((List.range' off n).map ((s.viewOf ip).byteAt ip.inum), ip, s) := by
  induction n using Nat.strong_induction_on generalizing off with
  | _ n ih =>
    rw [readiLoop]
    by_cases done : n = 0
    · subst done
      rfl
    · have modOff := Nat.mod_lt off (show BSIZE > 0 by decide)
      have atOff := Nat.div_add_mod off BSIZE
      have below : off / BSIZE < c := by
        rw [Nat.div_lt_iff_lt_mul (by decide)]
        omega
      rw [if_neg done, holds.bmap_existing below]
      simp only [Lib.ok_bind]
      rw [ih _ (by omega) (by omega)]
      simp only [Lib.ok_bind]
      refine congrArg (fun bytes => Except.ok (bytes, ip, s)) ?_
      rw [holds.blk_slot below, Block.read_eq_map (by omega)]
      have split : List.range' off n = List.range' off (min n (BSIZE - off % BSIZE)) ++
          List.range' (off + min n (BSIZE - off % BSIZE)) (n - min n (BSIZE - off % BSIZE)) := by
        rw [List.range'_append_1]
        congr 1
        omega
      rw [split, List.map_append]
      congr 1
      rw [show List.range' off (min n (BSIZE - off % BSIZE)) = (List.range' (off % BSIZE)
        (min n (BSIZE - off % BSIZE))).map (BSIZE * (off / BSIZE) + ·) by
          rw [List.map_add_range', atOff], List.map_map]
      apply List.map_congr_left
      intro p member
      rw [List.mem_range'_1] at member
      have small : p < BSIZE := by omega
      show _ = (s.viewOf ip).byteAt ip.inum (BSIZE * (off / BSIZE) + p)
      unfold View.byteAt
      rw [Nat.mul_add_div (by decide), Nat.div_eq_of_lt small, Nat.mul_add_mod,
        Nat.mod_eq_of_lt small, Nat.add_zero]

end Read

/-! ### Writing -/

section Write

variable {s s' : Fs} {ip ip' : Inode} {c c' : Nat}

theorem viewOf_setData {b : Nat} {block : Block} (ip : Inode) (inside : s.view.sb.dataStart ≤ b)
    (stored : s'.blk = Function.update s.blk b block) :
    s'.viewOf ip = (s.viewOf ip).setData b block := by
  unfold viewOf
  rw [view_setData inside stored]
  rfl

/-- The bytes `src` were written at `off`, where the inode grew from `c` to `c'` blocks. -/
structure Wrote (s s' : Fs) (ip ip' : Inode) (c c' off : Nat) (src : List UInt8)
    (taken sectors : List Nat) : Prop extends Grows s s' ip ip' c c' taken sectors where
  bytes : (s.viewOf ip).Patched (s'.viewOf ip') ip.inum c off src
  logged : ∀ x, x ∈ sectors ↔ s'.GrowthSector ip' c c' taken x ∨
    ∃ k, off / BSIZE ≤ k ∧ k < blocksOf (off + src.length) ∧ src ≠ [] ∧
      x = (s'.viewOf ip').slot ip.inum k

/-- The data blocks that are there and will be written are named. -/
def NamesData (s : Fs) (ip : Inode) (c off last : Nat) (more : Finset Nat) : Prop :=
  ∀ k, off / BSIZE ≤ k → k < c → k < last → (s.viewOf ip).slot ip.inum k ∈ more

/-- One turn of the loop of `writei`: the bytes that go into one block. -/
theorem Holds.writeBlock_meets (holds : Holds s ip c) {off : Nat} (src : List UInt8)
    {more : Finset Nat} (next : off ≤ c * BSIZE) (some' : src ≠ [])
    (fits : off % BSIZE + src.length ≤ BSIZE) (bound : off / BSIZE < MAXFILE)
    (plans : Plans s ip c (max c (off / BSIZE + 1)) more) :
    Meets (s.writeBlock ip src off)
      (fun (ip', s') => ∃ taken sectors,
        Wrote s s' ip ip' c (max c (off / BSIZE + 1)) off src taken sectors ∧
          (NamesData s ip c off (off / BSIZE + 1) more → ∀ x ∈ sectors, x ∈ more))
      (s.Stuck ip c (max c (off / BSIZE + 1)) more) := by
  have atOff := Nat.div_add_mod off BSIZE
  have modOff := Nat.mod_lt off (show BSIZE > 0 by decide)
  have le : off / BSIZE ≤ c := by
    rw [BSIZE_eq] at *
    omega
  unfold writeBlock
  refine (holds.bmap_meets le bound plans).bind ?_
  rintro ⟨b, ip', m⟩ ⟨taken, sectors, mapped⟩
  have holds' := mapped.toGrows.holds holds
  have number := mapped.toGrows.inum
  have below : off / BSIZE < max c (off / BSIZE + 1) := by omega
  have block : b = (m.viewOf ip').slot ip'.inum (off / BSIZE) := number ▸ mapped.block
  have named : ∀ x ∈ sectors, x ∈ more := fun x member =>
    plans.mem_sector mapped.toGrows le_rfl holds ((mapped.logged x).mp member)
  -- The block that is written was there, or is one of those just taken.
  have target : NamesData s ip c off (off / BSIZE + 1) more → b ∈ more := by
    intro names
    rw [mapped.block]
    by_cases old : off / BSIZE < c
    · rw [mapped.edits.slot_of_lt holds.shaped old]
      exact names _ le_rfl old (Nat.lt_succ_self _)
    · obtain same : off / BSIZE = c := by omega
      refine (plans.mem_taken mapped.toGrows le_rfl (mapped.edits.fresh _ ?_ ?_)).2
      · rw [same]
        exact holds.slot_new (same ▸ bound)
      · exact number ▸ (holds'.slot_data below).2
  have stays := Holds.slot_range holds' (holds'.slot_data below).2
  refine ((m.logWrite_meets _ _ more).mono (fun _ good => good)
    fun _ bad => .inr (mapped.logs.noRoom named bad)).bind ?_
  rintro s' ⟨stored, logs⟩
  subst block
  have disk : s'.view.din = m.view.din := by rw [view_setData stays stored]; rfl
  have after := viewOf_setData ip' stays stored
  rw [holds'.blk_slot below] at after
  have edit := View.Edits.write holds'.owned holds'.live holds'.shaped below
    (((m.viewOf ip').data ((m.viewOf ip').slot ip'.inum (off / BSIZE))).write (off % BSIZE) src)
  have step : Grows m s' ip' ip' _ _ [] _ := ⟨rfl, after ▸ edit, disk, logs⟩
  have whole := mapped.toGrows.trans step
  rw [List.append_nil] at whole
  refine ⟨taken, _, ⟨whole, ?_, ?_⟩, ?_⟩
  · rw [after, number]
    exact View.Patched.of_write mapped.edits holds.shaped (number ▸ holds'.live)
      mapped.data next fits
  · intro x
    have last : blocksOf (off + src.length) = off / BSIZE + 1 := by
      have := List.length_pos_iff.mpr some'
      unfold blocksOf
      rw [BSIZE_eq] at *
      omega
    have sector := GrowthSector.trans mapped.toGrows step x
    rw [List.append_nil] at sector
    rw [sector, List.mem_append, mapped.logged, List.mem_singleton, last]
    have kept : (s'.viewOf ip').slot ip.inum (off / BSIZE) =
        (m.viewOf ip').slot ip'.inum (off / BSIZE) := by
      rw [← number]
      exact step.edits.slot_of_lt holds'.shaped below
    constructor
    · rintro (grown | rfl)
      · exact .inl (.inl grown)
      · exact .inr ⟨off / BSIZE, le_rfl, Nat.lt_succ_self _, some', kept.symm⟩
    · rintro ((grown | none') | ⟨k, lower, upper, _, rfl⟩)
      · exact .inl grown
      · rcases none' with ⟨_, member, _⟩ | ⟨smaller, _⟩
        · exact (List.not_mem_nil member).elim
        · exact (lt_irrefl _ smaller).elim
      · obtain rfl : k = off / BSIZE := by omega
        exact .inr kept
  · intro names x member
    rcases List.mem_append.mp member with early | last
    · exact named x early
    · rw [List.mem_singleton.mp last]
      exact target names

theorem Wrote.trans {m : Fs} {ip₁ : Inode} {c₁ off off' : Nat} {first second : List UInt8}
    {taken taken' sectors sectors' : List Nat} (holds : Holds s ip c)
    (one : Wrote s m ip ip₁ c c₁ off first taken sectors)
    (two : Wrote m s' ip₁ ip' c₁ c' off' second taken' sectors') (at' : off' = off + first.length)
    (reached : c₁ = max c (blocksOf (off + first.length))) (some' : first ≠ [])
    (aligned : second ≠ [] → off' % BSIZE = 0) :
    Wrote s s' ip ip' c c' off (first ++ second) (taken ++ taken') (sectors ++ sectors') := by
  subst at'
  have number := one.toGrows.inum
  have holds' := one.toGrows.holds holds
  refine ⟨one.toGrows.trans two.toGrows, ?_, ?_⟩
  · exact one.bytes.trans (number ▸ two.bytes) one.edits.le
  · intro x
    rw [List.mem_append, one.logged, two.logged, GrowthSector.trans one.toGrows two.toGrows]
    have kept : ∀ k, k < c₁ → (s'.viewOf ip').slot ip.inum k = (m.viewOf ip₁).slot ip.inum k := by
      intro k below
      rw [← number]
      exact two.edits.slot_of_lt holds'.shaped below
    have firstLast : off / BSIZE < blocksOf (off + first.length) := by
      have := List.length_pos_iff.mpr some'
      unfold blocksOf
      rw [BSIZE_eq] at *
      omega
    rw [List.length_append, number]
    constructor
    · rintro ((grown | ⟨k, lower, upper, _, rfl⟩) | (grown | ⟨k, lower, upper, _, rfl⟩))
      · exact .inl (.inl grown)
      · refine .inr ⟨k, lower, ?_, by simp [some'], (kept k (by omega)).symm⟩
        exact upper.trans_le (blocksOf_le.mpr ((Nat.le_add_right _ second.length).trans
          (by rw [Nat.add_assoc] at *; exact blocksOf_le.mp le_rfl)))
      · exact .inl (.inr grown)
      · refine .inr ⟨k, ?_, by rw [← Nat.add_assoc]; exact upper, by simp [some'], rfl⟩
        exact (Nat.div_le_div_right (Nat.le_add_right _ _)).trans lower
    · rintro ((grown | grown) | ⟨k, lower, upper, _, rfl⟩)
      · exact .inl (.inl grown)
      · exact .inr (.inl grown)
      · by_cases early : k < blocksOf (off + first.length)
        · exact .inl (.inr ⟨k, lower, early, some', kept k (by omega)⟩)
        · have more : second ≠ [] := by
            rintro rfl
            simp at upper
            omega
          refine .inr (.inr ⟨k, ?_, by rw [Nat.add_assoc]; exact upper, more, rfl⟩)
          have := aligned more
          unfold blocksOf at early
          rw [BSIZE_eq] at *
          omega

/-- **The loop of `writei`.** What it needs room for is named in `more`, but for the last block,
which no `log_write` of the loop follows. -/
theorem Holds.writeiLoop_meets (holds : Holds s ip c) {off : Nat} {src : List UInt8}
    {more : Finset Nat} (next : off ≤ c * BSIZE) (bound : off + src.length ≤ MAXFILE * BSIZE)
    (plans : Plans s ip c (max c (blocksOf (off + src.length))) more)
    (names : NamesData s ip c off (blocksOf (off + src.length) - 1) more) :
    Meets (s.writeiLoop ip src off)
      (fun (ip', s') => ∃ taken sectors,
        Wrote s s' ip ip' c (max c (blocksOf (off + src.length))) off src taken sectors ∧
          (NamesData s ip c off (blocksOf (off + src.length)) more → ∀ x ∈ sectors, x ∈ more))
      (s.Stuck ip c (max c (blocksOf (off + src.length))) more) := by
  induction len : src.length using Nat.strong_induction_on generalizing s ip c off src with
  | _ n ih =>
    rw [writeiLoop]
    by_cases done : src = []
    · subst done
      have same : max c (blocksOf (off + ([] : List UInt8).length)) = c :=
        max_eq_left (blocksOf_le.mpr next)
      rw [if_pos rfl, ← len, same]
      refine ⟨[], [], ⟨⟨rfl, .refl holds.owned holds.shaped, rfl, .refl s⟩, ?_, ?_⟩, by simp⟩
      · exact .nil _ _ _ _
      · intro x
        simp [GrowthSector]
    · rw [if_neg done]
      have some' := List.length_pos_iff.mpr done
      have modOff := Nat.mod_lt off (show BSIZE > 0 by decide)
      have atOff := Nat.div_add_mod off BSIZE
      have le : off / BSIZE ≤ c := by
        rw [BSIZE_eq] at next ⊢
        omega
      -- What this turn writes, and what is left.
      generalize chunk : min src.length (BSIZE - off % BSIZE) = m
      have taken' : (src.take m).length = m := by
        rw [List.length_take]
        omega
      have left : (src.drop m).length = src.length - m := List.length_drop
      have here : blocksOf (off + m) = off / BSIZE + 1 := by
        unfold blocksOf
        rw [BSIZE_eq] at *
        omega
      have whole : off + m + (src.length - m) = off + src.length := by omega
      have reach : off / BSIZE + 1 ≤ blocksOf (off + src.length) := by
        rw [← here]
        exact blocksOf_le.mpr
          ((by omega : off + m ≤ off + src.length).trans (blocksOf_le.mp le_rfl))
      have total : max c (blocksOf (off + src.length)) =
          max (max c (off / BSIZE + 1)) (blocksOf (off + m + (src.drop m).length)) := by
        rw [left, whole]
        omega
      have upto : max c (off / BSIZE + 1) ≤ max c (blocksOf (off + src.length)) := by omega
      rw [← len]
      have turn := holds.writeBlock_meets (src.take m) next
        (by rw [← List.length_pos_iff]; omega) (by omega)
        (by rw [Nat.div_lt_iff_lt_mul (by decide)]; omega)
        (plans.mono (le_max_left _ _) upto)
      refine (turn.mono (fun _ good => good)
        fun _ stuck => stuck.mono (le_max_left _ _) upto).bind ?_
      rintro ⟨ip₁, s₁⟩ ⟨taken, sectors, wrote, named⟩
      have number := wrote.toGrows.inum
      have holds₁ := wrote.toGrows.holds holds
      have plans₁ := plans.after wrote.toGrows upto holds
      have next₁ : off + m ≤ max c (off / BSIZE + 1) * BSIZE := by
        rw [← here]
        exact (blocksOf_le.mp le_rfl).trans (Nat.mul_le_mul_right _ (le_max_right _ _))
      have still : ∀ last, NamesData s ip c off last more →
          NamesData s₁ ip₁ (max c (off / BSIZE + 1)) (off + m) last more := by
        intro last names k lower below upper
        have lower' : off / BSIZE ≤ k := (Nat.div_le_div_right (Nat.le_add_right _ _)).trans lower
        rw [number]
        by_cases old : k < c
        · rw [wrote.edits.slot_of_lt holds.shaped old]
          exact names k lower' old upper
        · obtain same : k = c := by omega
          refine (plans.mem_taken wrote.toGrows upto (wrote.edits.fresh k ?_ ?_)).2
          · rw [same]
            exact holds.slot_new (same ▸ below.trans_le holds₁.shaped.bound)
          · exact number ▸ (holds₁.slot_data below).2
      rw [total] at plans₁ ⊢
      have rest := ih _ (by omega) holds₁ next₁ (by omega) plans₁
        (still _ (by rw [left, whole]; exact names)) rfl
      simp only
      cases ran : s₁.writeiLoop ip₁ (src.drop m) (off + m) with
      | ok result =>
        obtain ⟨taken₂, sectors₂, wrote₂, named₂⟩ := rest.of_ok ran
        refine ⟨taken ++ taken₂, sectors ++ sectors₂, ?_, ?_⟩
        · have joined := Wrote.trans holds wrote wrote₂ (by rw [taken']) (by rw [taken', here])
            (by rw [← List.length_pos_iff]; omega) fun more' => by
              rw [← List.length_pos_iff, left] at more'
              rw [BSIZE_eq] at *
              omega
          rw [List.take_append_drop] at joined
          exact joined
        · intro all x member
          rcases List.mem_append.mp member with early | late
          · exact named (fun k lower below upper => all k lower below (upper.trans_le reach)) x
              early
          · exact named₂ (still _ (by rw [left, whole]; exact all)) x late
      | error panic =>
        have later : src.drop m ≠ [] := by
          intro none'
          rw [none', writeiLoop, if_pos rfl] at ran
          cases ran
        have behind : off / BSIZE + 1 ≤ blocksOf (off + src.length) - 1 := by
          rw [← List.length_pos_iff, left] at later
          unfold blocksOf
          rw [BSIZE_eq] at *
          omega
        exact wrote.toGrows.stuck (total ▸ upto) (named fun k lower below upper =>
          names k lower below (upper.trans_le behind)) (rest.of_error ran)

end Write

end Fs

end Xv6
