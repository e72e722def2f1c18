/-
**`commit()` and `recover_from_log()` as programs.**

`Bufs` keeps the disk, the cached blocks and the list of disk writes issued so far. `Performs s t
writes` says that going from `s` to `t` issues exactly `writes`, and is computed for the three parts
of both programs when the logged sectors lie outside the log. `view_commit` is what a commit does to
a block before the log whatever was logged: nothing, unless the log block of its copy was logged
before it.
-/

import Xv6.Lib.Writes
import Xv6.Block
import Xv6.Log.Basic

namespace Xv6

open Lib Function

/-- The disk, the cached blocks, and the disk writes issued so far, oldest first. -/
structure Bufs where
  disk : Nat → Block
  cache : Nat → Option Block
  writes : List (Nat × Block)

namespace Bufs

/-- The machine after a reboot: the cache is empty. -/
def boot (disk : Nat → Block) : Bufs := ⟨disk, fun _ => none, []⟩

/-- `bread`: the cached block, read from disk when it is not cached. -/
def bread (s : Bufs) (sector : Nat) : Block × Bufs :=
  match s.cache sector with
  | some b => (b, s)
  | none => (s.disk sector, { s with cache := update s.cache sector (some (s.disk sector)) })

/-- `bwrite` of a buffer that holds `data`. -/
def bwrite (s : Bufs) (sector : Nat) (data : Block) : Bufs where
  disk := update s.disk sector data
  cache := update s.cache sector (some data)
  writes := s.writes ++ [(sector, data)]

/-- The holder of a buffer changes its data; the disk has the old data still. -/
def store (s : Bufs) (sector : Nat) (data : Block) : Bufs :=
  { s with cache := update s.cache sector (some data) }

/-- What `bread` returns. -/
def view (s : Bufs) (sector : Nat) : Block := (s.cache sector).getD (s.disk sector)

theorem bread_fst (s : Bufs) (sector : Nat) : (s.bread sector).1 = s.view sector := by
  unfold bread view
  cases s.cache sector <;> rfl

theorem bread_disk (s : Bufs) (sector : Nat) : (s.bread sector).2.disk = s.disk := by
  unfold bread
  cases s.cache sector <;> rfl

theorem bread_writes (s : Bufs) (sector : Nat) : (s.bread sector).2.writes = s.writes := by
  unfold bread
  cases s.cache sector <;> rfl

theorem bread_view (s : Bufs) (sector : Nat) : (s.bread sector).2.view = s.view := by
  funext x
  unfold bread view
  cases cached : s.cache sector with
  | some b => rfl
  | none =>
    by_cases same : x = sector
    · subst same
      simp [cached]
    · simp [update_of_ne same]

theorem bwrite_view (s : Bufs) (sector : Nat) (data : Block) :
    (s.bwrite sector data).view = update s.view sector data := by
  funext x
  unfold bwrite view
  by_cases same : x = sector
  · subst same
    simp
  · simp [update_of_ne same]

theorem store_view (s : Bufs) (sector : Nat) (data : Block) :
    (s.store sector data).view = update s.view sector data := by
  funext x
  unfold store view
  by_cases same : x = sector
  · subst same
    simp
  · simp [update_of_ne same]

end Bufs

/-! ### The on-disk header -/

namespace LogHeader

/-- The loop of `write_head`: the sector numbers from slot `i` on. -/
def storeSectors (b : Block) : Nat → List UInt32 → Block
  | _, [] => b
  | i, x :: xs => storeSectors (b.setWord (i + 1) x) (i + 1) xs

/-- `write_head`'s changes to the header block: `n` and the used slots; the rest stays. -/
def store (b : Block) (lh : LogHeader) : Block :=
  storeSectors (b.setWord 0 (UInt32.ofNat lh.n)) 0 lh.sector

/-- The field `n` of a header block, as the loops see it: a negative `int` is no entry. -/
def storedCount (b : Block) : Nat := (b.word 0).toInt32.toInt.toNat

/-- `read_head`: `none` where the source would run over the end of `sector[LOGSIZE]`. -/
def load (b : Block) : Option LogHeader :=
  if fits : storedCount b ≤ LOGSIZE then
    some ⟨(List.range (storedCount b)).map fun i => b.word (i + 1), by simpa using fits⟩
  else none

theorem word_storeSectors {xs : List UInt32} {i : Nat} (inside : i + xs.length < NINDIRECT)
    (b : Block) (j : Nat) :
    (storeSectors b i xs).word j =
      if i < j then (xs[j - i - 1]?).getD (b.word j) else b.word j := by
  induction xs generalizing i b with
  | nil => simp [storeSectors]
  | cons x xs ih =>
    rw [List.length_cons] at inside
    rw [storeSectors, ih (by omega), Block.word_setWord (by omega)]
    by_cases before : i < j
    · rw [if_pos before]
      by_cases here : j = i + 1
      · subst here
        simp
      · rw [if_pos (by omega), if_neg here, show j - i - 1 = (j - (i + 1) - 1) + 1 by omega,
          List.getElem?_cons_succ]
    · rw [if_neg before, if_neg (by omega), if_neg (by omega)]

theorem small_count (lh : LogHeader) : lh.sector.length ≤ 30 := lh.fits

theorem storedCount_of_word {b : Block} {n : Nat} (small : n ≤ LOGSIZE)
    (word : b.word 0 = UInt32.ofNat n) : storedCount b = n := by
  have bound : n ≤ 30 := small
  unfold storedCount
  rw [word]
  have value : (UInt32.ofNat n).toBitVec.toNat = n := by
    show (UInt32.ofNat n).toNat = n
    rw [UInt32.toNat_ofNat']
    omega
  show ((UInt32.ofNat n).toBitVec.toInt).toNat = n
  rw [BitVec.toInt_eq_toNat_of_lt (by rw [value]; omega), value]
  rfl

theorem load_store (b : Block) (lh : LogHeader) : load (store b lh) = some lh := by
  have bound := lh.small_count
  have room : 0 + lh.sector.length < NINDIRECT := by
    unfold NINDIRECT BSIZE
    omega
  have count : storedCount (store b lh) = lh.n := by
    refine storedCount_of_word lh.fits ?_
    unfold store
    rw [word_storeSectors room, if_neg (by omega), Block.word_setWord_self (by decide)]
  unfold load
  rw [dif_pos (by rw [count]; exact lh.fits)]
  congr 1
  apply LogHeader.ext
  show (List.range (storedCount (store b lh))).map (fun i => (store b lh).word (i + 1)) = lh.sector
  rw [count]
  apply List.ext_getElem?
  intro i
  by_cases inside : i < lh.n
  · have inside' : i < lh.sector.length := inside
    rw [List.getElem?_map, List.getElem?_range inside, Option.map_some]
    unfold store
    rw [word_storeSectors room, if_pos (by omega), show i + 1 - 0 - 1 = i by omega,
      List.getElem?_eq_getElem inside', Option.getD_some]
  · have outside : lh.sector.length ≤ i := not_lt.mp inside
    rw [List.getElem?_eq_none (by simpa using not_lt.mp inside), List.getElem?_eq_none outside]

theorem load_of_zero {b : Block} (zero : b.word 0 = 0) : load b = some empty := by
  have count : storedCount b = 0 := storedCount_of_word (Nat.zero_le _) zero
  unfold load
  rw [dif_pos (by rw [count]; exact Nat.zero_le _)]
  congr 1
  apply LogHeader.ext
  show (List.range (storedCount b)).map (fun i => b.word (i + 1)) = []
  rw [count]
  rfl

theorem word_store_empty (b : Block) : (store b empty).word 0 = 0 := by
  show (b.setWord 0 (UInt32.ofNat 0)).word 0 = 0
  rw [Block.word_setWord_self (by decide)]
  rfl

end LogHeader

/-! ### The programs -/

namespace Log

/-- The loop of `write_log` from `tail` on. -/
def writeLogFrom (start : Nat) : Nat → List UInt32 → Bufs → Bufs
  | _, [], s => s
  | tail, x :: xs, s =>
    let toBuf := s.bread (start + tail + 1)
    let fromBuf := toBuf.2.bread x.toNat
    writeLogFrom start (tail + 1) xs
      (fromBuf.2.bwrite (start + tail + 1) (toBuf.1.write 0 (fromBuf.1.read 0 BSIZE)))

/-- The loop of `install_trans` from `tail` on. -/
def installFrom (start : Nat) : Nat → List UInt32 → Bufs → Bufs
  | _, [], s => s
  | tail, x :: xs, s =>
    let lbuf := s.bread (start + tail + 1)
    let dbuf := lbuf.2.bread x.toNat
    installFrom start (tail + 1) xs
      (dbuf.2.bwrite x.toNat (dbuf.1.write 0 (lbuf.1.read 0 BSIZE)))

/-- `write_log`: copy modified blocks from cache to log. -/
def writeLog (log : Log) (s : Bufs) : Bufs := writeLogFrom log.start 0 log.lh.sector s

/-- `install_trans`: copy committed blocks from log to their home location. -/
def installTrans (log : Log) (s : Bufs) : Bufs := installFrom log.start 0 log.lh.sector s

/-- `write_head`: write the in-memory header to disk. -/
def writeHead (log : Log) (s : Bufs) : Bufs :=
  let buf := s.bread log.start
  buf.2.bwrite log.start (LogHeader.store buf.1 log.lh)

/-- `commit`. -/
def commit (log : Log) (s : Bufs) : Log × Bufs :=
  if log.lh.n > 0 then
    let s := log.writeLog s
    let s := log.writeHead s
    let s := log.installTrans s
    let log := { log with lh := LogHeader.empty }
    (log, log.writeHead s)
  else (log, s)

theorem commit_fst (log : Log) (s : Bufs) :
    (log.commit s).1 = { log with lh := LogHeader.empty } := by
  unfold commit
  split
  · rfl
  · next none' =>
    have empty : log.lh = LogHeader.empty :=
      LogHeader.ext (List.length_eq_zero_iff.mp (Nat.eq_zero_of_not_pos none'))
    rw [← empty]

/-- `recover_from_log`: `none` where `read_head` would run over the end of the header. -/
def recoverFromLog (log : Log) (s : Bufs) : Option (Log × Bufs) :=
  let buf := s.bread log.start
  match LogHeader.load buf.1 with
  | none => none
  | some lh =>
    let log := { log with lh }
    let s := log.installTrans buf.2
    let log := { log with lh := LogHeader.empty }
    some (log, log.writeHead s)

end Log

/-! ### The writes they issue -/

/-- **Recovery from a header of zeros changes nothing**, in the log and in what `bread` returns. -/
theorem Log.recoverFromLog_clean {log : Log} {disk : Nat → Block} (empty : log.lh = LogHeader.empty)
    (clean : disk log.start = Block.zero) :
    ∃ r, log.recoverFromLog (Bufs.boot disk) = some (log, r) ∧ r.view = disk := by
  have read : ((Bufs.boot disk).bread log.start).1 = Block.zero := clean
  have header : LogHeader.load Block.zero = some LogHeader.empty :=
    LogHeader.load_of_zero (Block.word_zero (by decide))
  have same : { log with lh := LogHeader.empty } = log := by rw [← empty]
  refine ⟨log.writeHead ((Bufs.boot disk).bread log.start).2, ?_, ?_⟩
  · unfold recoverFromLog
    simp only [read, header, same]
    unfold installTrans
    rw [empty]
    rfl
  · have stored : LogHeader.store Block.zero LogHeader.empty = Block.zero := by decide +kernel
    have again : ((Bufs.boot disk).bread log.start).2.view log.start = Block.zero :=
      (congrFun (Bufs.bread_view _ _) _).trans clean
    unfold writeHead
    rw [Bufs.bwrite_view, Bufs.bread_view, Bufs.bread_view, Bufs.bread_fst, again, empty, stored,
      ← clean]
    exact update_eq_self _ _

/-- **Going from `s` to `t` issues exactly `writes`**, on the disk and in what `bread` returns. -/
structure Performs (s t : Bufs) (writes : List (Nat × Block)) : Prop where
  disk : t.disk = applyWrites s.disk writes
  view : t.view = applyWrites s.view writes
  issued : t.writes = s.writes ++ writes

namespace Performs

theorem refl (s : Bufs) : Performs s s [] := ⟨rfl, rfl, (List.append_nil _).symm⟩

theorem trans {s t u : Bufs} {first second : List (Nat × Block)} (one : Performs s t first)
    (two : Performs t u second) : Performs s u (first ++ second) :=
  ⟨by rw [two.disk, one.disk, applyWrites_append], by rw [two.view, one.view, applyWrites_append],
    by rw [two.issued, one.issued, List.append_assoc]⟩

theorem bread (s : Bufs) (sector : Nat) : Performs s (s.bread sector).2 [] :=
  ⟨s.bread_disk sector, s.bread_view sector, by rw [s.bread_writes, List.append_nil]⟩

theorem bwrite (s : Bufs) (sector : Nat) (data : Block) :
    Performs s (s.bwrite sector data) [(sector, data)] :=
  ⟨rfl, s.bwrite_view sector data, rfl⟩

end Performs

theorem Block.write_read_all (b c : Block) : b.write 0 (c.read 0 BSIZE) = c := by
  rw [Block.read_all, Block.write_all b c.size]

namespace Log

/-- The log blocks `write_log` writes from `tail` on. -/
def logWrites (start : Nat) : Nat → List Block → List (Nat × Block)
  | _, [] => []
  | tail, v :: vs => (start + tail + 1, v) :: logWrites start (tail + 1) vs

/-- The home blocks `install_trans` writes. -/
def homeWrites (xs : List UInt32) (vs : List Block) : List (Nat × Block) :=
  (xs.map UInt32.toNat).zip vs

theorem length_logWrites (start tail : Nat) (vs : List Block) :
    (logWrites start tail vs).length = vs.length := by
  induction vs generalizing tail with
  | nil => rfl
  | cons v vs ih => rw [logWrites, List.length_cons, ih, List.length_cons]

theorem mem_logWrites {start tail : Nat} {vs : List Block} {w : Nat × Block}
    (member : w ∈ logWrites start tail vs) :
    start + tail < w.1 ∧ w.1 ≤ start + tail + vs.length := by
  induction vs generalizing tail with
  | nil => cases member
  | cons v vs ih =>
    rw [List.length_cons]
    rcases List.mem_cons.mp member with rfl | later
    · exact ⟨by dsimp only; omega, by dsimp only; omega⟩
    · have := ih later
      omega

theorem applyWrites_logWrites (start tail : Nat) {vs : List Block} (store : Nat → Block) {i : Nat}
    (inside : i < vs.length) :
    applyWrites store (logWrites start tail vs) (start + tail + i + 1) = vs.get ⟨i, inside⟩ := by
  induction vs generalizing tail store i with
  | nil => exact absurd inside (Nat.not_lt_zero _)
  | cons v vs ih =>
    rw [logWrites, applyWrites_cons]
    cases i with
    | zero =>
      rw [applyWrites_of_notMem, Nat.add_zero, update_self]
      · rfl
      · intro w member
        have := mem_logWrites member
        omega
    | succ i =>
      rw [List.length_cons] at inside
      have next : applyWrites (update store (start + tail + 1) v)
          (logWrites start (tail + 1) vs) (start + (tail + 1) + i + 1) =
          vs.get ⟨i, by omega⟩ := ih _ _ _
      rw [show start + tail + (i + 1) + 1 = start + (tail + 1) + i + 1 by omega]
      exact next

theorem performs_writeLogFrom {start : Nat} {xs : List UInt32} {tail : Nat} (s : Bufs)
    (outside : ∀ x ∈ xs, x.toNat ≤ start + tail ∨ start + tail + xs.length < x.toNat) :
    Performs s (writeLogFrom start tail xs s)
      (logWrites start tail (xs.map fun x => s.view x.toNat)) := by
  induction xs generalizing tail s with
  | nil => exact Performs.refl s
  | cons x xs ih =>
    rw [writeLogFrom, Block.write_read_all]
    set toBuf := s.bread (start + tail + 1)
    set fromBuf := toBuf.2.bread x.toNat
    have value : fromBuf.1 = s.view x.toNat := by
      rw [Bufs.bread_fst, Bufs.bread_view]
    have step : Performs s (fromBuf.2.bwrite (start + tail + 1) fromBuf.1)
        [(start + tail + 1, s.view x.toNat)] := by
      have chain := ((Performs.bread s (start + tail + 1)).trans
        (Performs.bread toBuf.2 x.toNat)).trans
        (Performs.bwrite fromBuf.2 (start + tail + 1) fromBuf.1)
      rw [value] at chain ⊢
      exact chain
    have rest : Performs _ (writeLogFrom start (tail + 1) xs
        (fromBuf.2.bwrite (start + tail + 1) fromBuf.1)) _ := ih _ fun y member => by
        have := outside y (List.mem_cons_of_mem _ member)
        rw [List.length_cons] at this
        omega
    have sameView : (xs.map fun y => (fromBuf.2.bwrite (start + tail + 1) fromBuf.1).view y.toNat) =
        xs.map fun y => s.view y.toNat := by
      apply List.map_congr_left
      intro y member
      rw [step.view, applyWrites_of_notMem]
      intro w inside
      rw [List.mem_singleton] at inside
      rw [inside]
      have := outside y (List.mem_cons_of_mem _ member)
      rw [List.length_cons] at this
      dsimp only
      omega
    rw [sameView] at rest
    exact step.trans rest

/-- **What `install_trans` writes**: the view of the log blocks, to the home blocks. -/
theorem performs_installFrom {start : Nat} {xs : List UInt32} {vs : List Block} {tail : Nat}
    (s : Bufs) (length : vs.length = xs.length)
    (logged : ∀ i (inside : i < vs.length), s.view (start + tail + i + 1) = vs.get ⟨i, inside⟩)
    (outside : ∀ x ∈ xs, x.toNat ≤ start + tail ∨ start + tail + xs.length < x.toNat) :
    Performs s (installFrom start tail xs s) (homeWrites xs vs) := by
  induction xs generalizing tail s vs with
  | nil => exact Performs.refl s
  | cons x xs ih =>
    cases vs with
    | nil => cases length
    | cons v vs =>
      rw [List.length_cons, List.length_cons] at length
      rw [installFrom, Block.write_read_all]
      set lbuf := s.bread (start + tail + 1)
      set dbuf := lbuf.2.bread x.toNat
      have value : lbuf.1 = v := by
        rw [Bufs.bread_fst]
        exact logged 0 (by rw [List.length_cons]; omega)
      have step : Performs s (dbuf.2.bwrite x.toNat lbuf.1) [(x.toNat, v)] := by
        have chain := ((Performs.bread s (start + tail + 1)).trans
          (Performs.bread lbuf.2 x.toNat)).trans (Performs.bwrite dbuf.2 x.toNat lbuf.1)
        rw [value] at chain ⊢
        exact chain
      have here := outside x List.mem_cons_self
      rw [List.length_cons] at here
      have rest : Performs _ (installFrom start (tail + 1) xs
          (dbuf.2.bwrite x.toNat lbuf.1)) (homeWrites xs vs) := ih _ (by omega)
        (fun i inside => by
          rw [step.view, applyWrites_of_notMem]
          · have := logged (i + 1) (by rw [List.length_cons]; omega)
            rw [show start + (tail + 1) + i + 1 = start + tail + (i + 1) + 1 by omega, this]
            rfl
          · intro w member
            rw [List.mem_singleton] at member
            rw [member]
            dsimp only
            omega)
        fun y member => by
          have := outside y (List.mem_cons_of_mem _ member)
          rw [List.length_cons] at this
          omega
      exact step.trans rest

/-- **What `write_head` writes**: the header, over what stands in the header block. -/
theorem performs_writeHead (log : Log) (s : Bufs) :
    Performs s (log.writeHead s) [(log.start, LogHeader.store (s.view log.start) log.lh)] := by
  have chain := (Performs.bread s log.start).trans
    (Performs.bwrite (s.bread log.start).2 log.start
      (LogHeader.store (s.bread log.start).1 log.lh))
  rw [Bufs.bread_fst] at chain
  show Performs s ((s.bread log.start).2.bwrite log.start
    (LogHeader.store (s.bread log.start).1 log.lh)) _
  rw [Bufs.bread_fst]
  exact chain

/-! ### What a commit does to the blocks before the log -/

section View

variable {start tail z : Nat} {xs : List UInt32}

theorem view_writeLog_step (s : Bufs) (start tail : Nat) (x : UInt32) :
    (((s.bread (start + tail + 1)).2.bread x.toNat).2.bwrite (start + tail + 1)
      ((s.bread (start + tail + 1)).1.write 0
        (((s.bread (start + tail + 1)).2.bread x.toNat).1.read 0 BSIZE))).view =
      update s.view (start + tail + 1) (s.view x.toNat) := by
  rw [Block.write_read_all, Bufs.bwrite_view, Bufs.bread_view, Bufs.bread_view, Bufs.bread_fst,
    Bufs.bread_view]

theorem view_install_step (s : Bufs) (start tail : Nat) (x : UInt32) :
    (((s.bread (start + tail + 1)).2.bread x.toNat).2.bwrite x.toNat
      (((s.bread (start + tail + 1)).2.bread x.toNat).1.write 0
        ((s.bread (start + tail + 1)).1.read 0 BSIZE))).view =
      update s.view x.toNat (s.view (start + tail + 1)) := by
  rw [Block.write_read_all, Bufs.bwrite_view, Bufs.bread_view, Bufs.bread_view, Bufs.bread_fst]

theorem view_writeLogFrom_of_le (before : z ≤ start + tail) (s : Bufs) :
    (writeLogFrom start tail xs s).view z = s.view z := by
  induction xs generalizing tail s with
  | nil => rfl
  | cons x xs ih =>
    rw [writeLogFrom, ih (by omega), view_writeLog_step, update_of_ne (by omega)]

theorem view_writeLogFrom_copy {i : Nat} (inside : i < xs.length)
    (before : (xs.get ⟨i, inside⟩).toNat ≤ start + tail) (s : Bufs) :
    (writeLogFrom start tail xs s).view (start + tail + i + 1) =
      s.view (xs.get ⟨i, inside⟩).toNat := by
  induction xs generalizing tail s i with
  | nil => exact absurd inside (Nat.not_lt_zero _)
  | cons x xs ih =>
    rw [writeLogFrom]
    cases i with
    | zero =>
      rw [view_writeLogFrom_of_le (by omega), view_writeLog_step, Nat.add_zero,
        update_self]
      rfl
    | succ i =>
      have inside' : i < xs.length := Nat.lt_of_succ_lt_succ inside
      have before' : (xs.get ⟨i, inside'⟩).toNat ≤ start + tail := before
      have copy := @ih (tail + 1) i inside' (by omega)
        (((s.bread (start + tail + 1)).2.bread x.toNat).2.bwrite (start + tail + 1)
          ((s.bread (start + tail + 1)).1.write 0
            (((s.bread (start + tail + 1)).2.bread x.toNat).1.read 0 BSIZE)))
      rw [view_writeLog_step, update_of_ne (by omega)] at copy
      rw [show start + tail + (i + 1) + 1 = start + (tail + 1) + i + 1 by omega]
      exact copy

theorem view_installFrom_of_notMem (other : ∀ x ∈ xs, x.toNat ≠ z) (s : Bufs) :
    (installFrom start tail xs s).view z = s.view z := by
  induction xs generalizing tail s with
  | nil => rfl
  | cons x xs ih =>
    rw [installFrom, ih fun y member => other y (List.mem_cons_of_mem _ member), view_install_step,
      update_of_ne (other x List.mem_cons_self).symm]

theorem view_installFrom_home {i : Nat} (distinct : xs.Nodup) (inside : i < xs.length)
    (intact : ∀ j (earlier : j < i),
      (xs.get ⟨j, earlier.trans inside⟩).toNat ≠ start + tail + i + 1) (s : Bufs) :
    (installFrom start tail xs s).view (xs.get ⟨i, inside⟩).toNat =
      s.view (start + tail + i + 1) := by
  induction xs generalizing tail s i with
  | nil => exact absurd inside (Nat.not_lt_zero _)
  | cons x xs ih =>
    obtain ⟨fresh, distinct'⟩ := List.nodup_cons.mp distinct
    rw [installFrom]
    cases i with
    | zero =>
      rw [view_installFrom_of_notMem, view_install_step]
      · show update _ x.toNat _ x.toNat = _
        rw [update_self, Nat.add_zero]
      · intro y member same
        have same' : y = x := UInt32.toNat_inj.mp same
        exact fresh (same' ▸ member)
    | succ i =>
      have inside' : i < xs.length := Nat.lt_of_succ_lt_succ inside
      have first := intact 0 (Nat.succ_pos i)
      have home := @ih (tail + 1) i distinct' inside' (fun j earlier => by
        rw [show start + (tail + 1) + i + 1 = start + tail + (i + 1) + 1 by omega]
        exact intact (j + 1) (Nat.succ_lt_succ earlier))
        (((s.bread (start + tail + 1)).2.bread x.toNat).2.bwrite x.toNat
          (((s.bread (start + tail + 1)).2.bread x.toNat).1.write 0
            ((s.bread (start + tail + 1)).1.read 0 BSIZE)))
      rw [view_install_step, update_of_ne (by
        rw [show start + (tail + 1) + i + 1 = start + tail + (i + 1) + 1 by omega]
        exact first.symm)] at home
      rw [show start + tail + (i + 1) + 1 = start + (tail + 1) + i + 1 by omega]
      exact home

theorem view_writeHead_of_ne (log : Log) (other : z ≠ log.start) (s : Bufs) :
    (log.writeHead s).view z = s.view z := by
  rw [(performs_writeHead log s).view, applyWrites_cons, applyWrites_nil, update_of_ne other]

/-- **A commit leaves a block before the log as it was**, unless an earlier copy went home over the
log block of its own copy. -/
theorem view_commit {log : Log} (before : z < log.start) (distinct : log.lh.sector.Nodup)
    (intact : ∀ i (inside : i < log.lh.sector.length), (log.lh.sector.get ⟨i, inside⟩).toNat = z →
      ∀ j (earlier : j < i),
        (log.lh.sector.get ⟨j, earlier.trans inside⟩).toNat ≠ log.start + i + 1) (s : Bufs) :
    (log.commit s).2.view z = s.view z := by
  unfold commit
  by_cases none' : log.lh.n > 0
  · rw [if_pos none']
    have erased : (({ log with lh := LogHeader.empty } : Log).writeHead
        (log.installTrans (log.writeHead (log.writeLog s)))).view z =
        (log.installTrans (log.writeHead (log.writeLog s))).view z :=
      view_writeHead_of_ne { log with lh := LogHeader.empty } before.ne _
    refine erased.trans ?_
    unfold installTrans
    by_cases logged : ∃ x ∈ log.lh.sector, x.toNat = z
    · obtain ⟨x, member, rfl⟩ := logged
      obtain ⟨⟨i, inside⟩, rfl⟩ := List.get_of_mem member
      have copied : (log.writeLog s).view (log.start + 0 + i + 1) = _ :=
        view_writeLogFrom_copy inside before.le s
      rw [view_installFrom_home distinct inside (intact i inside rfl),
        view_writeHead_of_ne log (by omega), copied]
    · rw [view_installFrom_of_notMem fun x member same => logged ⟨x, member, same⟩,
        view_writeHead_of_ne log before.ne]
      exact view_writeLogFrom_of_le (show z ≤ log.start + 0 from before.le) s
  · rw [if_neg none']

end View

end Log

end Xv6
