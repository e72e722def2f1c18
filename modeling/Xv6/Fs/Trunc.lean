/-
**`itrunc`: an inode gives its blocks back.**

The loops of `itrunc` free the slots of the inode one after the other. `View.Freed v v' i K` says
that the blocks of the slots `K` of inode `i` were marked free and nothing else changed; no slot is
freed twice, so `bfree` always finds a used block. `View.Removed` is the effect of the last `iput`
on an inode without links, and it keeps the file system well formed.
-/

import Xv6.Fs.Files

namespace Xv6

open Lib

namespace View

/-- The blocks in the slots `K` of inode `i` were marked free. -/
structure Freed (v v' : View) (i : Nat) (K : Nat → Prop) : Prop where
  sb : v'.sb = v.sb
  din : v'.din = v.din
  data : v'.data = v.data
  bits : ∀ b, v'.bit b = true ↔ v.bit b = true ∧ ∀ k, K k → v.slot i k ≠ 0 → v.slot i k ≠ b

section Freed

variable {v v' : View} {i k : Nat} {K K' : Nat → Prop}

theorem Freed.refl (v : View) (i : Nat) : Freed v v i fun _ => False :=
  ⟨rfl, rfl, rfl, fun b => by simp⟩

theorem Freed.congr (freed : Freed v v' i K) (same : ∀ k, v.slot i k ≠ 0 → (K k ↔ K' k)) :
    Freed v v' i K' where
  sb := freed.sb
  din := freed.din
  data := freed.data
  bits b := by
    rw [freed.bits]
    refine and_congr_right fun _ => forall_congr' fun k => ?_
    constructor
    · intro kept inside some'
      exact kept ((same k some').mpr inside) some'
    · intro kept inside some'
      exact kept ((same k some').mp inside) some'

/-- A slot that was not freed yet still has its block marked used. -/
theorem Freed.used (owned : v.Owned) (live : v.Live i) (freed : Freed v v' i K) (new : ¬ K k)
    (some' : v.slot i k ≠ 0) : v'.bit (v.slot i k) = true := by
  refine (freed.bits _).mpr ⟨owned.slot_used live some', fun l inside other same => ?_⟩
  exact new ((owned.slot_inj live live other same).2 ▸ inside)

theorem Freed.free (freed : Freed v v' i K) (some' : v.slot i k ≠ 0) :
    Freed v (v'.setBit (v.slot i k) false) i fun l => K l ∨ l = k where
  sb := freed.sb
  din := freed.din
  data := freed.data
  bits b := by
    show Function.update v'.bit (v.slot i k) false b = true ↔ _
    rw [Function.update_apply]
    by_cases here : b = v.slot i k
    · rw [if_pos here]
      refine iff_of_false Bool.false_ne_true fun kept => ?_
      exact kept.2 k (.inr rfl) some' here.symm
    · rw [if_neg here, freed.bits]
      refine and_congr_right fun _ => ?_
      constructor
      · rintro kept l (inside | rfl) other
        · exact kept l inside other
        · exact fun same => here same.symm
      · intro kept l inside other
        exact kept l (.inl inside) other

end Freed

/-- **Inode `i` and its blocks were freed.** -/
structure Removed (v v' : View) (i : Nat) : Prop where
  sb : v'.sb = v.sb
  data : v'.data = v.data
  dead : ¬ v'.Live i
  others : ∀ j, j ≠ i → v'.din j = v.din j
  bits : ∀ b, v'.bit b = true ↔ v.bit b = true ∧ ∀ k, v.slot i k ≠ 0 → v.slot i k ≠ b

section Removed

variable {v v' : View} {i : Nat}

theorem Removed.slot (removed : Removed v v' i) {j : Nat} (other : j ≠ i) (k : Nat) :
    v'.slot j k = v.slot j k := by
  unfold View.slot
  rw [removed.others j other]
  exact slotOf_congr (fun _ => by rw [removed.data]) k

theorem Removed.live (removed : Removed v v' i) (j : Nat) : v'.Live j ↔ j ≠ i ∧ v.Live j := by
  by_cases same : j = i
  · subst same
    exact iff_of_false removed.dead fun both => both.1 rfl
  · unfold Live
    rw [removed.others j same]
    exact (and_iff_right same).symm

theorem Removed.contents (removed : Removed v v' i) {j : Nat} (other : j ≠ i) :
    v'.contents j = v.contents j :=
  contents_congr (by rw [removed.others j other]) fun k _ =>
    ⟨removed.slot other k, by rw [removed.data]⟩

/-- Removing an inode with all its blocks keeps the file system well formed. -/
theorem Removed.wellFormed (wellFormed : v.WellFormed) (live : v.Live i)
    (removed : Removed v v' i) : v'.WellFormed := by
  have owned := wellFormed.owned
  have emptied : ∀ place ∈ {place : Nat × Nat | place.1 = i}, v'.own place = none := by
    rintro ⟨j, k⟩ rfl
    exact own_eq_none.mpr fun alive => (removed.dead alive).elim
  have kept : ∀ place ∉ {place : Nat × Nat | place.1 = i}, v'.own place = v.own place := by
    rintro ⟨j, k⟩ other
    have other' : j ≠ i := other
    unfold own
    simp only [removed.slot other', removed.live, ne_eq, other', not_false_eq_true, true_and]
  have cleared : ∀ b, v'.bit b = true ↔
      v.bit b = true ∧ ∀ place ∈ {place : Nat × Nat | place.1 = i}, v.own place ≠ some b := by
    intro b
    rw [removed.bits]
    refine and_congr_right fun _ => ?_
    constructor
    · rintro free ⟨j, k⟩ rfl owns
      obtain ⟨_, some', rfl⟩ := own_eq_some.mp owns
      exact free k some' rfl
    · intro free k some' same
      exact free (i, k) rfl (own_eq_some.mpr ⟨live, same ▸ some', same⟩)
  refine ⟨⟨?_, ?_, ?_⟩, ?_, ?_⟩
  · rw [removed.sb]
    exact owned.owns.release {place | place.1 = i} emptied kept cleared
  · rintro ⟨j, k⟩ b owns
    rw [removed.sb]
    by_cases same : j = i
    · subst same
      rw [emptied (j, k) rfl] at owns
      cases owns
    · rw [kept (j, k) same] at owns
      exact owned.range owns
  · intro b below
    rw [removed.sb] at below
    refine (cleared b).mpr ⟨owned.metaUsed b below, fun place _ owns => ?_⟩
    exact absurd (owned.range owns).1 (Nat.not_le.mpr below)
  · intro j alive
    obtain ⟨other, before⟩ := (removed.live j).mp alive
    rw [removed.others j other]
    exact wellFormed.small j before
  · intro j alive
    obtain ⟨other, before⟩ := (removed.live j).mp alive
    have shaped := wellFormed.shaped j before
    rw [removed.others j other]
    refine ⟨shaped.bound, fun k inside => ?_⟩
    rw [removed.slot other]
    exact shaped.slots k inside

end Removed

end View

namespace Fs

/-- A panic of `log_write`. -/
def LogPanic (panic : Panic) : Prop := panic = .tooBigATransaction ∨ panic = .logWriteOutsideOfTrans

theorem NoRoom.logPanic {s : Fs} {more : Finset Nat} {panic : Panic} (none' : s.NoRoom more panic) :
    LogPanic panic := none'.1.imp_right And.left

section Trunc

variable {v : View} {s : Fs} {ip : Inode} {i k : Nat} {K : Nat → Prop}

/-- Freeing one more slot never finds a free block. -/
theorem bfree_slot_meets (owned : v.Owned) (live : v.Live i) (freed : v.Freed s.view i K)
    (new : ¬ K k) (some' : v.slot i k ≠ 0) :
    Meets (s.bfree (v.slot i k))
      (fun s' => (v.Freed s'.view i fun l => K l ∨ l = k) ∧ s.LogsBelow s' v.sb.dataStart)
      LogPanic := by
  have inside : v.slot i k < s.view.sb.size.toNat := by
    rw [freed.sb]
    exact (owned.slot_range live some').2
  refine (bfree_meets inside ∅).mono ?_ ?_
  · rintro s' ⟨_, view, logs⟩
    refine ⟨?_, logs.logsBelow ?_⟩
    · rw [view]
      exact freed.free some'
    · rw [← freed.sb]
      exact Superblock.BBLOCK_lt_dataStart inside
  · rintro panic (⟨_, clear⟩ | none')
    · rw [freed.used owned live new some'] at clear
      cases clear
    · exact none'.logPanic

/-- The addresses `K` of the in-memory inode were cleared. -/
structure Cleared (ip ip' : Inode) (K : Nat → Prop) : Prop where
  inode : ip' = { ip with din := { ip.din with addrs := ip'.din.addrs } }
  addr : ∀ l, K l → ip'.din.addr l = 0
  kept : ∀ l, ¬ K l → ip'.din.addr l = ip.din.addr l

theorem Cleared.clear {ip' : Inode} (cleared : Cleared ip ip' K) (inside : k ≤ NDIRECT) :
    Cleared ip (ip'.setAddr k 0) fun l => K l ∨ l = k := by
  have addr : ∀ l, (ip'.setAddr k 0).din.addr l = if l = k then 0 else ip'.din.addr l :=
    Dinode.addr_setAddr inside (by decide)
  refine ⟨?_, ?_, ?_⟩
  · have only : ip'.setAddr k 0 =
        { ip' with din := { ip'.din with addrs := (ip'.setAddr k 0).din.addrs } } :=
      congrArg (fun din => { ip' with din }) (ip'.din.setAddr_eq k 0)
    refine only.trans ?_
    generalize (ip'.setAddr k 0).din.addrs = addrs
    rw [cleared.inode]
  · rintro l (before | rfl)
    · rw [addr]
      split
      · rfl
      · exact cleared.addr l before
    · rw [addr, if_pos rfl]
  · intro l outside
    rw [addr, if_neg fun same => outside (.inr same)]
    exact cleared.kept l fun before => outside (.inl before)

theorem Cleared.skip {ip' : Inode} (cleared : Cleared ip ip' K) (none' : ip.din.addr k = 0) :
    Cleared ip ip' fun l => K l ∨ l = k := by
  refine ⟨cleared.inode, ?_, fun l outside => cleared.kept l fun before => outside (.inl before)⟩
  rintro l (before | rfl)
  · exact cleared.addr l before
  · by_cases before : K l
    · exact cleared.addr l before
    · rw [cleared.kept l before, none']

/-- The first loop of `itrunc` frees the direct slots. -/
theorem freeDirect_meets (locked : Locked s ip) :
    Meets (s.freeDirect ip)
      (fun (ip', s') => Cleared ip ip' (· ∈ List.range NDIRECT) ∧
        s.view.Freed s'.view ip.inum (· ∈ List.range NDIRECT) ∧
        s.LogsBelow s' s.view.sb.dataStart) LogPanic := by
  have owned := locked.wellFormed.owned
  have live : s.view.Live ip.inum := locked.viewOf_eq ▸ locked.holds.live
  have addrs : ∀ k, k < NDIRECT → s.view.slot ip.inum k = ip.din.addr k := by
    intro k direct
    unfold View.slot
    rw [locked.synced, View.slotOf_direct direct]
  unfold freeDirect
  refine Meets.foldlM (fun done (r : Inode × Fs) => Cleared ip r.1 (· ∈ done) ∧
    s.view.Freed r.2.view ip.inum (· ∈ done) ∧ s.LogsBelow r.2 s.view.sb.dataStart) ?_ ?_
  · refine ⟨⟨rfl, fun l absurdity => (List.not_mem_nil absurdity).elim, fun _ _ => rfl⟩, ?_,
      .refl s _⟩
    exact (View.Freed.refl _ _).congr fun k _ => by simp
  · rintro done j rest ⟨ip', s'⟩ split ⟨cleared, freed, logs⟩
    have inside : j ∈ List.range NDIRECT := by
      rw [split]
      simp
    have direct := List.mem_range.mp inside
    have new : j ∉ done := by
      have distinct : (List.range NDIRECT).Nodup := List.nodup_range
      rw [split, List.nodup_append] at distinct
      exact fun before => distinct.2.2 j before j List.mem_cons_self rfl
    have members : ∀ l, l ∈ done ++ [j] ↔ l ∈ done ∨ l = j := by
      intro l
      rw [List.mem_append, List.mem_singleton]
    simp only [members]
    have same : ip'.din.addr j = ip.din.addr j := cleared.kept j new
    by_cases some' : ip'.din.addr j = 0
    · rw [if_neg (not_not.mpr some')]
      refine ⟨cleared.skip (same ▸ some'), freed.congr fun k some'' => ?_, logs⟩
      constructor
      · exact .inl
      · rintro (before | rfl)
        · exact before
        · rw [addrs k direct, ← same] at some''
          exact (some'' some').elim
    · rw [if_pos some']
      have slot : ip'.din.addr j = s.view.slot ip.inum j := by rw [addrs j direct, same]
      rw [slot] at some' ⊢
      refine (bfree_slot_meets owned live freed new some').bind ?_
      rintro s'' ⟨freed', logs'⟩
      exact ⟨cleared.clear direct.le, freed', logs.trans logs'⟩

theorem freeEntries_meets (owned : v.Owned) (live : v.Live i) {bp : Block}
    (entries : ∀ j, j < NINDIRECT → v.slot i (NDIRECT + j) = (bp.word j).toNat)
    (freed : v.Freed s.view i (· < NDIRECT)) :
    Meets (s.freeEntries bp)
      (fun s' => v.Freed s'.view i (· < MAXFILE) ∧ s.LogsBelow s' v.sb.dataStart) LogPanic := by
  unfold freeEntries
  refine (Meets.foldlM (fun done (m : Fs) => (v.Freed m.view i fun k =>
    k < NDIRECT ∨ ∃ j ∈ done, k = NDIRECT + j) ∧ s.LogsBelow m v.sb.dataStart) ?_ ?_).mono ?_
    fun _ bad => bad
  · exact ⟨freed.congr fun k _ => by simp, .refl s _⟩
  · rintro done j rest m split ⟨before, logs⟩
    have inside : j < NINDIRECT := by
      rw [← List.mem_range, split]
      simp
    have new : ¬ (NDIRECT + j < NDIRECT ∨ ∃ l ∈ done, NDIRECT + j = NDIRECT + l) := by
      have distinct : (List.range NINDIRECT).Nodup := List.nodup_range
      rw [split, List.nodup_append] at distinct
      rintro (short | ⟨l, member, same⟩)
      · omega
      · exact distinct.2.2 l member j List.mem_cons_self (by omega)
    have members : ∀ k, (k < NDIRECT ∨ ∃ l ∈ done ++ [j], k = NDIRECT + l) ↔
        (k < NDIRECT ∨ ∃ l ∈ done, k = NDIRECT + l) ∨ k = NDIRECT + j := by
      intro k
      simp only [List.mem_append, List.mem_singleton, or_and_right, exists_or,
        exists_eq_left, or_assoc]
    have slot := entries j inside
    by_cases some' : bp.word j = 0
    · rw [if_neg (not_not.mpr some')]
      refine ⟨before.congr fun k some'' => ?_, logs⟩
      rw [members]
      constructor
      · exact .inl
      · rintro (member | rfl)
        · exact member
        · rw [slot, some'] at some''
          exact (some'' rfl).elim
    · rw [if_pos some']
      have some'' : v.slot i (NDIRECT + j) ≠ 0 := by
        rw [slot]
        exact fun zero => some' (UInt32.toNat_inj.mp zero)
      rw [← slot]
      exact (bfree_slot_meets owned live before new some'').mono
        (fun s' after => ⟨after.1.congr fun k _ => (members k).symm, logs.trans after.2⟩)
        fun _ bad => bad
  · rintro s' ⟨after, logs⟩
    refine ⟨after.congr fun k _ => ?_, logs⟩
    constructor
    · rintro (direct | ⟨j, member, rfl⟩)
      · exact direct.trans (by decide)
      · have := List.mem_range.mp member
        rw [MAXFILE_eq, NDIRECT_eq, NINDIRECT_eq] at *
        omega
    · intro short
      by_cases direct : k < NDIRECT
      · exact .inl direct
      · refine .inr ⟨k - NDIRECT, List.mem_range.mpr ?_, by omega⟩
        rw [MAXFILE_eq, NDIRECT_eq, NINDIRECT_eq] at *
        omega

theorem freeIndirect_meets (locked : Locked s ip) {ip₁ : Inode} {s₁ : Fs}
    (cleared : Cleared ip ip₁ (· ∈ List.range NDIRECT))
    (freed : s.view.Freed s₁.view ip.inum (· ∈ List.range NDIRECT)) :
    Meets (s₁.freeIndirect ip₁)
      (fun (ip', s') => Cleared ip ip' (· ≤ NDIRECT) ∧
        (s.view.Freed s'.view ip.inum fun _ => True) ∧ s₁.LogsBelow s' s.view.sb.dataStart)
      LogPanic := by
  have owned := locked.wellFormed.owned
  have live : s.view.Live ip.inum := locked.viewOf_eq ▸ locked.holds.live
  have indirect : s.view.slot ip.inum MAXFILE = ip.din.addr NDIRECT := by
    unfold View.slot
    rw [locked.synced, View.slotOf_indirect]
  have beyond : ∀ k, s.view.slot ip.inum k ≠ 0 → k ≤ MAXFILE := by
    intro k some'
    by_contra outside
    exact some' (View.slotOf_beyond (Nat.lt_of_not_le outside))
  have direct : s.view.Freed s₁.view ip.inum (· < NDIRECT) :=
    freed.congr fun k _ => by rw [List.mem_range]
  have same : ip₁.din.addr NDIRECT = ip.din.addr NDIRECT := cleared.kept _ (by simp)
  have upTo : ∀ l, (l ∈ List.range NDIRECT ∨ l = NDIRECT) ↔ l ≤ NDIRECT := by
    intro l
    rw [List.mem_range, Nat.le_iff_lt_or_eq]
  unfold freeIndirect
  rw [same]
  by_cases none' : ip.din.addr NDIRECT = 0
  · rw [if_neg (not_not.mpr none')]
    have skipped := cleared.skip none'
    simp only [upTo] at skipped
    refine ⟨skipped, direct.congr fun k some' => iff_of_true ?_ trivial, .refl s₁ _⟩
    by_contra behind
    rcases Nat.lt_or_eq_of_le (beyond k some') with short | rfl
    · unfold View.slot at some'
      rw [locked.synced, View.slotOf_entry_none (Nat.le_of_not_lt behind) short none'] at some'
      exact some' rfl
    · exact some' (indirect.trans none')
  · rw [if_pos none']
    have here : s.view.slot ip.inum MAXFILE ≠ 0 := indirect ▸ none'
    have block : s₁.blk (ip.din.addr NDIRECT) = s.view.data (ip.din.addr NDIRECT) := by
      have inside : s₁.view.sb.dataStart ≤ ip.din.addr NDIRECT := by
        rw [freed.sb, ← indirect]
        exact (owned.slot_range live here).1
      rw [← view_data_of_le inside, freed.data]
    rw [block]
    refine (freeEntries_meets owned live ?_ direct).bind ?_
    · intro j inside
      unfold View.slot
      rw [locked.synced, View.slotOf_entry (Nat.le_add_right _ _) (by unfold MAXFILE; omega) none',
        Nat.add_sub_cancel_left]
    · rintro s₂ ⟨freed₂, logs₂⟩
      have last := bfree_slot_meets owned live freed₂ (lt_irrefl _) here
      rw [indirect] at last
      refine last.bind ?_
      rintro s₃ ⟨freed₃, logs₃⟩
      have all := cleared.clear le_rfl
      simp only [upTo] at all
      exact ⟨all, freed₃.congr fun k some' =>
        iff_of_true (Nat.lt_or_eq_of_le (beyond k some')) trivial, logs₂.trans logs₃⟩

/-- **`itrunc`** frees every block of the inode and nothing else. -/
theorem Locked.itrunc_meets (locked : Locked s ip) :
    Meets (s.itrunc ip)
      (fun (ip', s') => ip' = { ip with din := { ip.din with size := 0, addrs := fun _ => 0 } } ∧
        (∃ m : View, s.view.Freed m ip.inum (fun _ => True) ∧ s'.view = m.setDin ip.inum ip'.din) ∧
        s.LogsBelow s' s.view.sb.dataStart)
      LogPanic := by
  unfold itrunc
  refine (freeDirect_meets locked).bind ?_
  rintro ⟨ip₁, s₁⟩ ⟨cleared, freed, logs⟩
  refine (freeIndirect_meets locked cleared freed).bind ?_
  rintro ⟨ip₂, s₂⟩ ⟨cleared₂, freed₂, logs₂⟩
  have zeros : ip₂.din.addrs = fun _ => 0 := by
    funext l
    have zero := cleared₂.addr l (Nat.le_of_lt_succ l.isLt)
    unfold Dinode.addr at zero
    rw [dif_pos l.isLt] at zero
    exact UInt32.toNat_inj.mp zero
  have final : ({ ip₂ with din := { ip₂.din with size := 0 } } : Inode) =
      { ip with din := { ip.din with size := 0, addrs := fun _ => 0 } } := by
    rw [cleared₂.inode, zeros]
  simp only [final]
  unfold iupdate putDinode
  refine ((s₂.logWrite_meets _ _ ∅).mono (fun _ good => good) fun _ bad => bad.logPanic).bind ?_
  rintro s' ⟨stored, logs₃⟩
  have inside : ip.inum < s₂.readsb.ninodes.toNat := by
    have sb : s₂.readsb = s.readsb := freed₂.sb
    rw [sb]
    exact locked.inside
  exact ⟨rfl, ⟨s₂.view, freed₂, view_putDinode inside stored⟩, (logs.trans logs₂).trans
    (logs₃.logsBelow (Superblock.IBLOCK_lt_dataStart locked.inside))⟩

end Trunc

end Fs

end Xv6
