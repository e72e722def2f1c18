/-
**`dirlookup` and `dirlink`.**

Reading a directory changes nothing, so a loop over its entries is a search in the list of its
entries. `dirlookup` takes a reference to the inode of the entry it finds; `dirlink` writes one
entry, or drops that reference again.
-/

import Xv6.Fs.Dir
import Xv6.Kernel.Cache

namespace Xv6.Kernel

open Lib

section Read

variable {k : Kernel} {dp : Slot} {why : Panic} {stop : Dirent → Bool} {off : Nat}

theorem setInode_self (k : Kernel) (ip : Slot) : k.setInode ip (k.icache ip) = k := by
  unfold setInode
  rw [Function.update_eq_self]

theorem readi_unchanged {ip : Slot} {n : Nat} {r : Int} {bytes : List UInt8}
    (read : k.fs.readi (k.icache ip) off n = .ok (r, bytes, k.icache ip, k.fs)) :
    k.readi ip off n = .ok (r, bytes, k) := by
  unfold readi
  rw [read]
  show Except.ok (r, bytes, { k.setInode ip (k.icache ip) with fs := k.fs }) = _
  rw [setInode_self]

/-- Reading an entry returns that of the list and changes nothing. -/
theorem readDirent_eq {c : Nat} (holds : k.fs.Holds (k.icache dp) c)
    (file : (k.icache dp).din.type ≠ T_DEV)
    (inside : off + DIRENTSIZE ≤ (k.icache dp).din.size.toNat)
    (covered : off + DIRENTSIZE ≤ c * BSIZE) (small : c * BSIZE < 2 ^ 32) :
    k.readDirent dp why off =
      .ok ((k.fs.viewOf (k.icache dp)).direntAt (k.icache dp).inum off, k) := by
  have count : min DIRENTSIZE ((k.icache dp).din.size.toNat - off) = DIRENTSIZE := by omega
  have read := holds.readi_eq file (show off ≤ _ by omega) (show off + DIRENTSIZE < 2 ^ 32 by omega)
    (by rw [count]; exact covered)
  rw [count] at read
  unfold readDirent
  rw [readi_unchanged read, Lib.ok_bind]
  exact if_neg (not_not.mpr rfl)

theorem scan_append {entry : Nat → Dirent} {offs : List Nat}
    (readable : ∀ off ∈ offs, k.readDirent dp why off = .ok (entry off, k)) (rest : List Nat) :
    scan why stop dp (offs ++ rest) k =
      match (offs.map fun off => (entry off, off)).find? fun x => stop x.1 with
      | some found => .ok (some found, k)
      | none => scan why stop dp rest k := by
  induction offs with
  | nil => rfl
  | cons off offs ih =>
    rw [List.cons_append, scan, readable off List.mem_cons_self, List.map_cons, List.find?_cons]
    simp only [Lib.ok_bind]
    cases stop (entry off) with
    | true => rfl
    | false => exact ih fun off' member => readable off' (List.mem_cons_of_mem _ member)

end Read

/-! ### Directories of a well-formed disk -/

section Coherent

variable {k : Kernel} {dp : Slot} {why : Panic} {stop : Dirent → Bool} {name : List UInt8}

/-- The directory `dp` is in use, and its copy is valid. -/
structure OpenDir (k : Kernel) (dp : Slot) : Prop where
  used : 0 < (k.icache dp).ref
  valid : (k.icache dp).valid = true
  dir : (k.icache dp).din.type = T_DIR

theorem OpenDir.file (opened : k.OpenDir dp) : (k.icache dp).din.type ≠ T_DEV := by
  rw [opened.dir]
  decide

theorem entryOffs_eq (k : Kernel) (dp : Slot) (first : Nat) : k.entryOffs dp first =
    (List.range' first ((k.icache dp).din.size.toNat / DIRENTSIZE - first)).map (DIRENTSIZE * ·) ++
      if (k.icache dp).din.size.toNat % DIRENTSIZE ≠ 0 ∧
          first ≤ (k.icache dp).din.size.toNat / DIRENTSIZE then
        [DIRENTSIZE * ((k.icache dp).din.size.toNat / DIRENTSIZE)] else [] := by
  unfold entryOffs entriesBelow
  generalize (k.icache dp).din.size.toNat = size
  split
  · next partly =>
    have count : (size + DIRENTSIZE - 1) / DIRENTSIZE - first = size / DIRENTSIZE - first + 1 := by
      rw [DIRENTSIZE_eq] at *
      omega
    rw [count, List.range'_1_concat, List.map_append, List.map_singleton,
      Nat.add_sub_cancel' partly.2]
  · next whole =>
    have count : (size + DIRENTSIZE - 1) / DIRENTSIZE - first = size / DIRENTSIZE - first := by
      rw [DIRENTSIZE_eq] at *
      omega
    rw [count, List.append_nil]

/-- The read of an entry that is not whole fails. -/
theorem Coherent.readDirent_part (coherent : k.Coherent) (opened : k.OpenDir dp)
    (partly : (k.icache dp).din.size.toNat % DIRENTSIZE ≠ 0) :
    k.readDirent dp why (DIRENTSIZE * ((k.icache dp).din.size.toNat / DIRENTSIZE)) =
      .error (.panic why) := by
  have locked := coherent.synced dp opened.used opened.valid
  have small := locked.small
  rw [MAXFILE_eq, BSIZE_eq] at small
  have read := readi_unchanged (locked.readi_eq opened.file
    (show DIRENTSIZE * ((k.icache dp).din.size.toNat / DIRENTSIZE) ≤ _ by
      rw [DIRENTSIZE_eq]
      omega)
    (show _ + DIRENTSIZE < 2 ^ 32 by
      rw [DIRENTSIZE_eq]
      omega))
  unfold readDirent
  rw [read, Lib.ok_bind]
  refine if_pos ?_
  show ((min DIRENTSIZE _ : Nat) : Int) ≠ (DIRENTSIZE : Int)
  have partly' := partly
  rw [DIRENTSIZE_eq] at partly' ⊢
  omega

/-- **A loop over the entries of a directory is a search in the list of its entries.** -/
theorem Coherent.scan_meets (coherent : k.Coherent) (opened : k.OpenDir dp) (first : Nat) :
    Meets (scan why stop dp (k.entryOffs dp first) k)
      (fun (found, k') => k' = k ∧
        found = (k.fs.view.findEntry (k.icache dp).inum first stop).map
          (fun x => (x.1, DIRENTSIZE * x.2)) ∧
        (found = none → first ≤ (k.icache dp).din.size.toNat / DIRENTSIZE →
          (k.icache dp).din.size.toNat % DIRENTSIZE = 0))
      fun halt => halt = .panic why ∧ (k.icache dp).din.size.toNat % DIRENTSIZE ≠ 0 := by
  have locked := coherent.synced dp opened.used opened.valid
  have small := locked.small
  have fits := Fs.size_le_blocks (k.icache dp)
  have covers : Fs.blocks (k.icache dp) * BSIZE < 2 ^ 32 := by
    have := blocksOf_le.mpr small
    unfold Fs.blocks
    rw [MAXFILE_eq, BSIZE_eq] at *
    omega
  have size : (k.fs.view.din (k.icache dp).inum).size = (k.icache dp).din.size := by
    rw [locked.synced]
  have readable : ∀ off ∈ (List.range' first
      ((k.icache dp).din.size.toNat / DIRENTSIZE - first)).map (DIRENTSIZE * ·),
      k.readDirent dp why off = .ok (k.fs.view.direntAt (k.icache dp).inum off, k) := by
    intro off member
    obtain ⟨p, inside, rfl⟩ := List.mem_map.mp member
    rw [List.mem_range'_1] at inside
    have within : DIRENTSIZE * p + DIRENTSIZE ≤ (k.icache dp).din.size.toNat := by
      rw [DIRENTSIZE_eq] at *
      omega
    rw [readDirent_eq locked.holds opened.file within (within.trans fits) covers, locked.viewOf_eq]
  rw [entryOffs_eq, scan_append readable, View.findEntry_eq, size, List.map_map, List.find?_map]
  cases found : (List.range' first ((k.icache dp).din.size.toNat / DIRENTSIZE - first)).find?
      ((fun x => stop x.1) ∘ (fun off => (k.fs.view.direntAt (k.icache dp).inum off, off)) ∘
        fun x => DIRENTSIZE * x) with
  | some p =>
    have found' : (List.range' first ((k.icache dp).din.size.toNat / DIRENTSIZE - first)).find?
        (fun p => stop (k.fs.view.direntAt (k.icache dp).inum (DIRENTSIZE * p))) = some p := found
    rw [found']
    exact ⟨rfl, rfl, fun absurdity => by cases absurdity⟩
  | none =>
    have found' : (List.range' first ((k.icache dp).din.size.toNat / DIRENTSIZE - first)).find?
        (fun p => stop (k.fs.view.direntAt (k.icache dp).inum (DIRENTSIZE * p))) = none := found
    rw [found']
    simp only [Option.map_none]
    split
    · next partly =>
      rw [scan, coherent.readDirent_part opened partly.1]
      exact ⟨rfl, partly.1⟩
    · next whole =>
      refine ⟨rfl, rfl, fun _ from' => ?_⟩
      by_contra partly
      exact whole ⟨partly, from'⟩

/-- **`dirlookup`** finds no entry, or takes a reference to the inode of the first one of that
name. -/
theorem Coherent.dirlookup_meets (coherent : k.Coherent) (opened : k.OpenDir dp)
    (name : List UInt8) :
    Meets (k.dirlookup dp name)
      (fun (found, k') => match found with
        | none => k' = k ∧
          k.fs.view.findEntry (k.icache dp).inum 0 (matchesName name) = none ∧
          (k.icache dp).din.size.toNat % DIRENTSIZE = 0
        | some (ip, off) => ∃ de p, off = DIRENTSIZE * p ∧
          k.fs.view.findEntry (k.icache dp).inum 0 (matchesName name) = some (de, p) ∧
          Got k k' de.inum.toNat ip) Safe := by
  unfold dirlookup
  rw [if_neg (not_not.mpr opened.dir)]
  refine ((coherent.scan_meets opened 0).mono (fun _ good => good) ?_).bind ?_
  · rintro _ ⟨rfl, _⟩ absurdity
    cases absurdity
  · rintro ⟨found, m⟩ ⟨rfl, search, whole⟩
    cases entry : m.fs.view.findEntry (m.icache dp).inum 0 (matchesName name) with
    | none =>
      rw [entry] at search
      obtain rfl : found = none := search
      exact ⟨rfl, rfl, whole rfl (Nat.zero_le _)⟩
    | some r =>
      obtain ⟨de, p⟩ := r
      rw [entry] at search
      obtain rfl : found = some (de, DIRENTSIZE * p) := search
      simp only
      rw [coherent.dev dp opened.used]
      refine (coherent.iget_meets _).bind ?_
      rintro ⟨ip, k'⟩ got
      exact ⟨de, p, rfl, rfl, got⟩

end Coherent

/-- Nothing on the disk changed, and no reference count. -/
structure Same (k k' : Kernel) : Prop where
  coherent : k'.Coherent
  fs : k'.fs = k.fs
  steady : k.Steady k'
  ref : ∀ ip, (k'.icache ip).ref = (k.icache ip).ref

theorem Got.drop {k m k' : Kernel} {inum : Nat} {ip : Slot} (coherent : k.Coherent)
    (got : Got k m inum ip) (dropped : Dropped m k' ip) : Same k k' := by
  have kept : m.fs = k.fs → (m.icache ip).ref ≠ 1 ∨ (m.icache ip).valid = false := by
    intro _
    by_cases unused : (k.icache ip).ref = 0
    · exact .inr (got.fresh unused)
    · left
      have := coherent.nonneg ip
      rw [got.ref]
      omega
  obtain ⟨fs, valid⟩ := dropped.kept ((kept got.fs).imp_right .inl)
  refine ⟨dropped.coherent, fs.trans got.fs, ?_, ?_⟩
  · intro jp used
    obtain ⟨inum', valid'⟩ := got.steady jp used
    by_cases same : jp = ip
    · subst same
      rw [dropped.inum, valid]
      exact ⟨inum', valid'⟩
    · rw [dropped.others jp same]
      exact ⟨inum', valid'⟩
  · intro jp
    by_cases same : jp = ip
    · subst same
      rw [dropped.ref, got.ref]
      omega
    · rw [dropped.others jp same, got.others jp same]

section Dirlink

variable {k : Kernel} {dp : Slot}

theorem Coherent.emptyOffset (coherent : k.Coherent) (opened : k.OpenDir dp)
    (whole : (k.icache dp).din.size.toNat % DIRENTSIZE = 0) {empty : Option (Dirent × Nat)}
    (search : empty = (k.fs.view.findEntry (k.icache dp).inum 0 fun de => de.inum == 0).map
      fun x => (x.1, DIRENTSIZE * x.2)) :
    (empty.map Prod.snd).getD (DIRENTSIZE * entriesBelow (k.icache dp).din.size.toNat) =
      DIRENTSIZE * k.fs.view.emptyEntry (k.icache dp).inum ∧
    DIRENTSIZE * k.fs.view.emptyEntry (k.icache dp).inum ≤ (k.icache dp).din.size.toNat := by
  have count : entriesBelow (k.icache dp).din.size.toNat =
      (k.fs.view.dirents (k.icache dp).inum).length := by
    rw [View.length_dirents, (coherent.synced dp opened.used opened.valid).synced]
    unfold entriesBelow
    rw [DIRENTSIZE_eq] at *
    omega
  constructor
  · rw [search, count]
    unfold View.emptyEntry
    cases k.fs.view.findEntry (k.icache dp).inum 0 fun de => de.inum == 0 <;> rfl
  · have le := k.fs.view.emptyEntry_le (k.icache dp).inum
    rw [← count] at le
    unfold entriesBelow at le
    rw [DIRENTSIZE_eq] at *
    omega

/-- **`dirlink`** fails where the name is there, and writes an entry otherwise. -/
theorem Coherent.dirlink_meets (coherent : k.Coherent) (opened : k.OpenDir dp) (name : List UInt8)
    (inum : Nat) :
    Meets (k.dirlink dp name inum)
      (fun (r, k') =>
        r = -1 ∧ Same k k' ∧
          (k.fs.view.findEntry (k.icache dp).inum 0 (matchesName name)).isSome = true ∨
        r = 0 ∧ Stored k k' dp ∧
          k.fs.view.findEntry (k.icache dp).inum 0 (matchesName name) = none ∧
          (k.icache dp).din.size.toNat % DIRENTSIZE = 0 ∧
          Fs.Fits (k.icache dp) (DIRENTSIZE * k.fs.view.emptyEntry (k.icache dp).inum) DIRENTSIZE ∧
          ∃ taken sectors, Fs.Written k.fs k'.fs (k.icache dp) (k'.icache dp)
            (DIRENTSIZE * k.fs.view.emptyEntry (k.icache dp).inum)
            (Dirent.encode ⟨UInt16.ofNat inum, strncpy name DIRSIZ⟩) taken sectors) Safe := by
  have locked := coherent.synced dp opened.used opened.valid
  have small := locked.small
  unfold dirlink
  refine (coherent.dirlookup_meets opened name).bind ?_
  rintro ⟨found, m⟩ after
  cases found with
  | some r =>
    obtain ⟨ip, off⟩ := r
    obtain ⟨de, p, _, entry, got⟩ := after
    have used : 0 < (m.icache ip).ref := by
      have := coherent.nonneg ip
      rw [got.ref]
      omega
    refine (got.coherent.iput_meets used).bind ?_
    intro k' dropped
    exact .inl ⟨rfl, got.drop coherent dropped, by rw [entry]; rfl⟩
  | none =>
    obtain ⟨rfl, absent, whole⟩ := after
    refine ((coherent.scan_meets opened 0).mono (fun _ good => good) ?_).bind ?_
    · rintro _ ⟨rfl, _⟩ absurdity
      cases absurdity
    · rintro ⟨empty, m'⟩ ⟨rfl, search, _⟩
      simp only
      have length : (Dirent.encode ⟨UInt16.ofNat inum, strncpy name DIRSIZ⟩).length = DIRENTSIZE :=
        Dirent.length_encode (length_strncpy _ _)
      obtain ⟨offset, inside⟩ := coherent.emptyOffset opened whole search
      have word : DIRENTSIZE * m'.fs.view.emptyEntry (m'.icache dp).inum < 2 ^ 32 := by
        rw [MAXFILE_eq, BSIZE_eq] at small
        omega
      rw [offset]
      refine (coherent.writei_meets opened.used opened.valid _ _
        ⟨word, by rw [length]; decide⟩).bind ?_
      rintro ⟨r, k'⟩ ⟨stored, rejected, written⟩
      simp only
      rw [length] at rejected written
      split
      · intro absurdity
        cases absurdity
      · next wrote =>
        by_cases fits : Fs.Fits (m'.icache dp)
            (DIRENTSIZE * m'.fs.view.emptyEntry (m'.icache dp).inum) DIRENTSIZE
        · exact .inr ⟨rfl, stored, absent, whole, fits, (written fits).2⟩
        · rw [(rejected fits).2 opened.file] at wrote
          exact absurd (show (-1 : Int) ≠ (DIRENTSIZE : Int) by decide) wrote

end Dirlink

end Xv6.Kernel
