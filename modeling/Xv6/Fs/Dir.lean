/-
**The content of a directory.**

A directory is a file of 16-byte entries: `View.dirents v d` is the list they spell, and a loop over
the entries is a search in it (`findEntry`). A `writei` of one entry replaces that entry of the list
or appends it.
-/

import Xv6.Fs.Files

namespace Xv6.View

open Lib

/-- The directory entry at an offset. -/
def direntAt (v : View) (d off : Nat) : Dirent :=
  Dirent.decode (slice (v.contents d) off DIRENTSIZE)

/-- **The entries of directory `d`.** -/
def dirents (v : View) (d : Nat) : List Dirent :=
  (List.range ((v.din d).size.toNat / DIRENTSIZE)).map fun p => v.direntAt d (DIRENTSIZE * p)

/-- The entries in the first block of a directory. -/
def firstEnts (v : View) (d : Nat) : List Dirent :=
  (List.range ((v.din d).size.toNat / DIRENTSIZE)).map fun p =>
    Dirent.decode (slice (v.data (v.slot d 0)).data (DIRENTSIZE * p) DIRENTSIZE)

theorem dirents_of_le {v : View} {d : Nat} (small : (v.din d).size.toNat ≤ BSIZE) :
    v.dirents d = v.firstEnts d := by
  refine List.map_congr_left fun p member => ?_
  have inside : p < (v.din d).size.toNat / DIRENTSIZE := List.mem_range.mp member
  have room : DIRENTSIZE * p + DIRENTSIZE ≤ (v.din d).size.toNat := by
    have := Nat.div_mul_le_self (v.din d).size.toNat DIRENTSIZE
    rw [show DIRENTSIZE = 16 from rfl] at inside this ⊢
    omega
  unfold direntAt slice
  rw [contents_of_le small, List.drop_take, List.take_take, Nat.min_eq_left (by omega)]

/-- The first entry of directory `d`, from entry `first` on, that `stop` accepts, with its index. -/
def findEntry (v : View) (d first : Nat) (stop : Dirent → Bool) : Option (Dirent × Nat) :=
  ((v.dirents d).zipIdx.drop first).find? fun x => stop x.1

/-- The index that a new entry gets: that of the first entry without an inode, or behind the
last. -/
def emptyEntry (v : View) (d : Nat) : Nat :=
  ((v.findEntry d 0 fun de => de.inum == 0).map Prod.snd).getD (v.dirents d).length

section Dirents

variable {v v' : View} {d p : Nat} {de : Dirent} {taken : List Nat}

theorem length_dirents (v : View) (d : Nat) :
    (v.dirents d).length = (v.din d).size.toNat / DIRENTSIZE := by
  unfold dirents
  rw [List.length_map, List.length_range]

theorem getElem?_dirents (v : View) (d p : Nat) : (v.dirents d)[p]? =
    if p < (v.din d).size.toNat / DIRENTSIZE then some (v.direntAt d (DIRENTSIZE * p))
    else none := by
  unfold dirents
  rw [List.getElem?_map]
  split
  · next inside =>
    rw [List.getElem?_range inside]
    rfl
  · next outside =>
    rw [List.getElem?_eq_none (by rw [List.length_range]; omega)]
    rfl

theorem zipIdx_dirents (v : View) (d first : Nat) : (v.dirents d).zipIdx.drop first =
    (List.range' first ((v.din d).size.toNat / DIRENTSIZE - first)).map fun p =>
      (v.direntAt d (DIRENTSIZE * p), p) := by
  apply List.ext_getElem?
  intro p
  rw [List.getElem?_drop, List.getElem?_zipIdx, getElem?_dirents, List.getElem?_map]
  by_cases inside : first + p < (v.din d).size.toNat / DIRENTSIZE
  · rw [if_pos inside, List.getElem?_range' (by omega)]
    simp
  · rw [if_neg inside, List.getElem?_eq_none (by rw [List.length_range']; omega)]
    rfl

theorem findEntry_eq (v : View) (d first : Nat) (stop : Dirent → Bool) : v.findEntry d first stop =
    ((List.range' first ((v.din d).size.toNat / DIRENTSIZE - first)).find? fun p =>
      stop (v.direntAt d (DIRENTSIZE * p))).map fun p => (v.direntAt d (DIRENTSIZE * p), p) := by
  unfold findEntry
  rw [zipIdx_dirents, List.find?_map]
  rfl

/-- A loop over a directory stops at an entry of the list. -/
theorem findEntry_eq_some {first : Nat} {stop : Dirent → Bool}
    (found : v.findEntry d first stop = some (de, p)) :
    first ≤ p ∧ (v.dirents d)[p]? = some de ∧ stop de = true := by
  rw [findEntry_eq] at found
  obtain ⟨q, hit, same⟩ := Option.map_eq_some_iff.mp found
  obtain ⟨rfl, rfl⟩ := Prod.mk.inj same
  have inside := List.mem_range'_1.mp (List.mem_of_find?_eq_some hit)
  have accepted := List.find?_some hit
  refine ⟨inside.1, ?_, accepted⟩
  rw [getElem?_dirents, if_pos (by omega)]

theorem findEntry_eq_none {first : Nat} {stop : Dirent → Bool}
    (none' : v.findEntry d first stop = none) (from' : first ≤ p)
    (entry : (v.dirents d)[p]? = some de) : stop de = false := by
  rw [findEntry_eq, Option.map_eq_none_iff, List.find?_eq_none] at none'
  rw [getElem?_dirents] at entry
  split at entry
  · next inside =>
    cases entry
    have := none' p (List.mem_range'_1.mpr ⟨from', by omega⟩)
    simpa using this
  · cases entry

theorem emptyEntry_le (v : View) (d : Nat) : v.emptyEntry d ≤ (v.dirents d).length := by
  unfold emptyEntry
  cases found : v.findEntry d 0 fun de => de.inum == 0 with
  | none => exact le_rfl
  | some r =>
    obtain ⟨_, entry, _⟩ := findEntry_eq_some (show v.findEntry d 0 _ = some (r.1, r.2) from found)
    exact (List.getElem?_eq_some_iff.mp entry).1.le

theorem dirents_congr (size : (v'.din d).size = (v.din d).size)
    (contents : v'.contents d = v.contents d) : v'.dirents d = v.dirents d := by
  unfold dirents direntAt
  rw [size, contents]

/-- **One entry written**: a whole one is there, or the directory ends with whole entries. -/
theorem Rewritten.dirents (name : de.name.length = DIRSIZ)
    (aligned : (v.din d).size.toNat % DIRENTSIZE = 0 ∨ p < (v.dirents d).length)
    (inside : DIRENTSIZE * p ≤ (v.din d).size.toNat)
    (rewritten : v.Rewritten v' d (DIRENTSIZE * p) de.encode taken) :
    v'.dirents d = splice (v.dirents d) p [de] := by
  have bytes : de.encode.length = DIRENTSIZE := Dirent.length_encode name
  have size := rewritten.size
  rw [bytes] at size
  rw [length_dirents] at aligned
  have within : DIRENTSIZE * p ≤ (v.contents d).length := by
    rw [length_contents]
    exact inside
  have position : p ≤ (v.dirents d).length := by
    rw [length_dirents]
    rw [DIRENTSIZE_eq] at *
    omega
  have here : v'.direntAt d (DIRENTSIZE * p) = de := by
    unfold direntAt
    rw [rewritten.contents]
    have read := slice_splice_self within de.encode
    rw [bytes] at read
    rw [read, Dirent.decode_encode name]
  have there : ∀ q, q ≠ p → v'.direntAt d (DIRENTSIZE * q) = v.direntAt d (DIRENTSIZE * q) := by
    intro q other
    unfold direntAt
    rw [rewritten.contents, slice_splice_of_disjoint within]
    rw [bytes, DIRENTSIZE_eq]
    omega
  apply List.ext_getElem?
  intro q
  rw [getElem?_dirents, getElem?_splice position, getElem?_dirents, size]
  rcases lt_trichotomy q p with before | rfl | behind
  · rw [there q before.ne, if_pos before, if_pos (by rw [DIRENTSIZE_eq] at *; omega),
      if_pos (by rw [DIRENTSIZE_eq] at *; omega)]
  · rw [if_pos (by rw [DIRENTSIZE_eq] at *; omega), here, if_neg (lt_irrefl _), if_pos (by simp)]
    simp
  · have past : ¬ q < p + [de].length := by
      rw [List.length_singleton]
      omega
    have count : q < max (v.din d).size.toNat (DIRENTSIZE * p + DIRENTSIZE) / DIRENTSIZE ↔
        q < (v.din d).size.toNat / DIRENTSIZE := by
      rw [DIRENTSIZE_eq] at *
      omega
    rw [there q behind.ne', if_neg (not_lt.mpr behind.le), if_neg past]
    simp only [count]

end Dirents

end Xv6.View
