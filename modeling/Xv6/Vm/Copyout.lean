/-
**`copyout`: bytes stored through a page table.**

`copyout` goes page by page and wraps around at `2 ^ 32`. What it stores is said of the bytes of
physical memory: byte `k` of the buffer lands in the page that `va + k` is mapped to. It stops at
the first page that is not the user's; but it also reads the entry of a page whose table is missing,
through the null pointer.
-/

import Xv6.Vm.Dealloc

namespace Xv6.Vm

open Lib
open Function (update update_self update_of_ne)

variable {s s' s'' : Phys} {pgdir : Page}

/-! ### Bytes of a page -/

theorem byte_putByte (s : Phys) (p q : Page) (o x : Nat) (b : BitVec 8) :
    (s.putByte p o b).byte q x = if q = p ∧ x = o then b else s.byte q x := by
  unfold Phys.byte Phys.putByte Phys.set
  simp only
  by_cases page : q = p
  · subst page
    rw [update_self]
    by_cases word : x / 4 = o / 4
    · rw [word, update_self, Memory.byteOf_setByte _ _ _ (Nat.mod_lt x (by decide))]
      by_cases same : x = o
      · rw [if_pos (congrArg (· % 4) same), if_pos ⟨rfl, same⟩]
      · rw [if_neg (by omega), if_neg fun both => same both.2]
    · rw [update_of_ne word, if_neg]
      rintro ⟨_, rfl⟩
      exact word rfl
  · rw [update_of_ne page, if_neg fun both => page both.1]

theorem mem_putByte (s : Phys) {p q : Page} (o : Nat) (b : BitVec 8) (other : q ≠ p) :
    (s.putByte p o b).mem q = s.mem q :=
  update_of_ne other _ _

theorem mem_memmove (s : Phys) {p q : Page} (o : Nat) (bs : List (BitVec 8)) (other : q ≠ p) :
    (s.memmove p o bs).mem q = s.mem q := by
  induction bs generalizing s o with
  | nil => rfl
  | cons b rest ih => exact (ih (s.putByte p o b) (o + 1)).trans (mem_putByte s o b other)

theorem byte_congr {p : Page} (same : s'.mem p = s.mem p) (x : Nat) : s'.byte p x = s.byte p x := by
  unfold Phys.byte
  rw [same]

theorem byte_memmove (s : Phys) (p : Page) (o x : Nat) (bs : List (BitVec 8)) :
    (s.memmove p o bs).byte p x = if o ≤ x then (bs[x - o]?).getD (s.byte p x) else s.byte p x := by
  induction bs generalizing s o with
  | nil =>
    rw [List.getElem?_nil, Option.getD_none, ite_self]
    rfl
  | cons b rest ih =>
    show ((s.putByte p o b).memmove p (o + 1) rest).byte p x = _
    rw [ih, byte_putByte]
    by_cases same : x = o
    · subst same
      rw [if_neg (by omega), if_pos ⟨rfl, rfl⟩, if_pos (Nat.le_refl x), Nat.sub_self]
      rfl
    · rw [if_neg (show ¬ (p = p ∧ x = o) from fun both => same both.2)]
      by_cases after : o + 1 ≤ x
      · rw [if_pos after, if_pos (by omega),
          show x - o = x - (o + 1) + 1 by omega, List.getElem?_cons_succ]
      · rw [if_neg after, if_neg (by omega)]

/-! ### Addresses and what they are mapped to -/

/-- The address of byte `k`. -/
def addrAt (va k : Nat) : Nat := (va + k) % 2 ^ 32

/-- The page of byte `k`. -/
def pageAt (va k : Nat) : Nat := addrAt va k / PGSIZE

/-- The user may access page `v`. -/
def Access (s : Phys) (pgdir : Page) (v : Nat) : Prop :=
  present (entry s.mem pgdir v) = true ∧ user (entry s.mem pgdir v) = true

instance (s : Phys) (pgdir : Page) (v : Nat) : Decidable (Access s pgdir v) :=
  inferInstanceAs (Decidable (_ ∧ _))

/-- The physical page of page `v`. -/
def frameOf (s : Phys) (pgdir : Page) (v : Nat) : Page := PTE_ADDR (entry s.mem pgdir v)

/-- The byte seen at an address. -/
def seen (s : Phys) (pgdir : Page) (a : Nat) : BitVec 8 :=
  s.byte (frameOf s pgdir (a / PGSIZE)) (a % PGSIZE)

/-- The pages the user may access are different pages, and neither the directory nor one of its
tables. -/
structure Unaliased (s : Phys) (pgdir : Page) : Prop where
  inj : ∀ {u v}, Access s pgdir u → Access s pgdir v → frameOf s pgdir u = frameOf s pgdir v → u = v
  notDir : ∀ {v}, Access s pgdir v → frameOf s pgdir v ≠ pgdir
  notTable : ∀ {v d}, Access s pgdir v → table s.mem pgdir d ≠ some (frameOf s pgdir v)

/-- The two states have the same directory. -/
structure SameDir (s s' : Phys) (pgdir : Page) : Prop where
  entries : entry s'.mem pgdir = entry s.mem pgdir
  tables : table s'.mem pgdir = table s.mem pgdir

theorem SameDir.refl (s : Phys) (pgdir : Page) : SameDir s s pgdir := ⟨rfl, rfl⟩

theorem SameDir.trans (first : SameDir s s' pgdir) (second : SameDir s' s'' pgdir) :
    SameDir s s'' pgdir :=
  ⟨second.entries.trans first.entries, second.tables.trans first.tables⟩

theorem SameDir.access (same : SameDir s s' pgdir) (v : Nat) :
    Access s' pgdir v ↔ Access s pgdir v := by
  unfold Access
  rw [same.entries]

theorem SameDir.frameOf (same : SameDir s s' pgdir) (v : Nat) :
    frameOf s' pgdir v = frameOf s pgdir v := by
  unfold Vm.frameOf
  rw [same.entries]

theorem SameDir.unaliased (same : SameDir s s' pgdir) (unaliased : Unaliased s pgdir) :
    Unaliased s' pgdir where
  inj first second is := by
    rw [same.frameOf, same.frameOf] at is
    exact unaliased.inj ((same.access _).1 first) ((same.access _).1 second) is
  notDir is := by
    rw [same.frameOf]
    exact unaliased.notDir ((same.access _).1 is)
  notTable is := by
    rw [same.frameOf, same.tables]
    exact unaliased.notTable ((same.access _).1 is)

theorem Unaliased.memmove (unaliased : Unaliased s pgdir) {v : Nat}
    (access : Access s pgdir v) (o : Nat) (bs : List (BitVec 8)) :
    SameDir s (s.memmove (frameOf s pgdir v) o bs) pgdir := by
  have dir := mem_memmove s o bs (unaliased.notDir access).symm
  refine ⟨entry_congr dir fun d t here => mem_memmove s o bs ?_, table_congr dir⟩
  rintro rfl
  exact unaliased.notTable access here

/-! ### The effect of `copyout` -/

/-- **The bytes of the buffer were stored at `va`, and nothing else was.** -/
structure Wrote (s s' : Phys) (pgdir : Page) (va : Nat) (buf : List (BitVec 8)) : Prop where
  hit : ∀ k b, buf[k]? = some b → s'.byte (frameOf s pgdir (pageAt va k)) (addrAt va k % PGSIZE) = b
  miss :
    ∀ p x, (∀ k < buf.length, ¬ (p = frameOf s pgdir (pageAt va k) ∧ x = addrAt va k % PGSIZE)) →
    s'.byte p x = s.byte p x

/-- Every page touched, up to the first that is not the user's, has its page table. -/
def Tabled (s : Phys) (pgdir : Page) (va len : Nat) : Prop :=
  ∀ k < len, (∀ j < k, Access s pgdir (pageAt va j)) →
    table s.mem pgdir (pageAt va k / NPTENTRIES) ≠ none

/-- **The call ended as it should**: it returned 0 exactly if the user may access every page
touched, and then stored the buffer and nothing else; and it changed only pages the user may
access. -/
structure CopiedOut (s s' : Phys) (pgdir : Page) (va : Nat) (buf : List (BitVec 8)) (ok : Bool) :
    Prop where
  same : SameDir s s' pgdir
  iff : ok = true ↔ ∀ k < buf.length, Access s pgdir (pageAt va k)
  wrote : ok = true → Wrote s s' pgdir va buf
  kept : ∀ p, (∀ v, Access s pgdir v → p ≠ frameOf s pgdir v) → s'.mem p = s.mem p

theorem CopiedOut.empty (s : Phys) (pgdir : Page) (va : Nat) : CopiedOut s s pgdir va [] true where
  same := .refl s pgdir
  iff := iff_of_true rfl fun k absurdity => absurd absurdity (Nat.not_lt_zero k)
  wrote _ := ⟨fun _ _ is => (nomatch is), fun _ _ _ => rfl⟩
  kept _ _ := rfl

/-! ### One round -/

/-- The bytes of the first round. -/
def firstBytes (va len : Nat) : Nat := min (PGSIZE - va % PGSIZE) len

theorem addrAt_first {va len k : Nat} (small : va < 2 ^ 32) (early : k < firstBytes va len) :
    addrAt va k = va + k ∧ pageAt va k = va / PGSIZE ∧ addrAt va k % PGSIZE = va % PGSIZE + k := by
  unfold firstBytes at early
  unfold pageAt addrAt
  unfold PGSIZE at *
  omega

theorem addrAt_next {va len k : Nat} (late : firstBytes va len ≤ k) (more : k < len) :
    addrAt va k = addrAt ((PGROUNDDOWN va + PGSIZE) % 2 ^ 32) (k - firstBytes va len) := by
  unfold firstBytes at *
  unfold addrAt PGROUNDDOWN
  unfold PGSIZE at *
  omega

theorem firstBytes_pos {va len : Nat} (more : 0 < len) : 0 < firstBytes va len := by
  unfold firstBytes PGSIZE
  omega

theorem firstBytes_le (va len : Nat) : firstBytes va len ≤ len := Nat.min_le_right _ _

theorem addrAt_inj {va j k : Nat} (first : j < 2 ^ 32) (second : k < 2 ^ 32)
    (same : addrAt va j = addrAt va k) : j = k := by
  unfold addrAt at same
  omega

theorem addrAt_eq {va j k : Nat} (page : pageAt va j = pageAt va k)
    (offset : addrAt va j % PGSIZE = addrAt va k % PGSIZE) : addrAt va j = addrAt va k := by
  unfold pageAt at page
  rw [← Nat.div_add_mod (addrAt va j) PGSIZE, page, offset, Nat.div_add_mod]

theorem uva2ka_known {v : Nat} (inside : v < 2 ^ 20)
    (here : table s.mem pgdir (v / NPTENTRIES) ≠ none) :
    s.uva2ka pgdir (v * PGSIZE) =
      .ok (if Access s pgdir v then some (frameOf s pgdir v) else none) := by
  obtain ⟨t, is⟩ := Option.ne_none_iff_exists'.1 here
  unfold Phys.uva2ka
  rw [walk_known false (by rw [PDX_page inside]; exact is), PTX_page]
  simp only
  rw [← entry_of_table is]
  by_cases present' : present (entry s.mem pgdir v) = true
  · rw [if_neg (not_not.2 present')]
    by_cases user' : user (entry s.mem pgdir v) = true
    · rw [if_neg (not_not.2 user'), if_pos ⟨present', user'⟩]
      rfl
    · rw [if_pos user', if_neg fun both => user' both.2]
  · rw [if_pos present', if_neg fun both => present' both.1]

theorem uva2ka_missing {v : Nat} (inside : v < 2 ^ 20)
    (missing : table s.mem pgdir (v / NPTENTRIES) = none) :
    s.uva2ka pgdir (v * PGSIZE) = .error .nullPte := by
  unfold Phys.uva2ka
  rw [walk_missing (by rw [PDX_page inside]; exact missing)]

section

variable {va len : Nat} (small : va < 2 ^ 32) (more : 0 < len)

include small more

theorem tabled_iff : Tabled s pgdir va len ↔ table s.mem pgdir (va / PGSIZE / NPTENTRIES) ≠ none ∧
    (Access s pgdir (va / PGSIZE) →
      Tabled s pgdir ((PGROUNDDOWN va + PGSIZE) % 2 ^ 32) (len - firstBytes va len)) := by
  have le := firstBytes_le va len
  have pos : 0 < firstBytes va len := firstBytes_pos more
  have zero : pageAt va 0 = va / PGSIZE := (addrAt_first small pos).2.1
  have next : ∀ k, k < len - firstBytes va len →
      pageAt ((PGROUNDDOWN va + PGSIZE) % 2 ^ 32) k = pageAt va (firstBytes va len + k) := by
    intro k inside
    unfold pageAt
    rw [addrAt_next (Nat.le_add_right _ _) (show firstBytes va len + k < len by omega),
      Nat.add_sub_cancel_left]
  constructor
  · intro tabled
    refine ⟨?_, fun access k inside before => ?_⟩
    · rw [← zero]
      exact tabled 0 more fun j absurdity => absurd absurdity (Nat.not_lt_zero j)
    · rw [next k inside]
      refine tabled _ (by omega) fun j earlier => ?_
      by_cases early : j < firstBytes va len
      · rw [(addrAt_first small early).2.1]
        exact access
      · have := before (j - firstBytes va len) (by omega)
        rwa [next _ (by omega), show firstBytes va len + (j - firstBytes va len) = j by omega]
          at this
  · rintro ⟨here, rest⟩ k inside before
    by_cases early : k < firstBytes va len
    · rw [(addrAt_first small early).2.1]
      exact here
    · have access : Access s pgdir (va / PGSIZE) := zero ▸ before 0 (by omega)
      have := rest access (k - firstBytes va len) (by omega) fun j earlier => by
        rw [next j (by omega)]
        exact before _ (by omega)
      rwa [next _ (by omega), show firstBytes va len + (k - firstBytes va len) = k by omega] at this

end

theorem copyoutLoop_round (fuel : Nat) {va : Nat} {buf : List (BitVec 8)} (more : 0 < buf.length) :
    Phys.copyoutLoop pgdir (fuel + 1) s va buf =
      (s.uva2ka pgdir (va / PGSIZE * PGSIZE) >>= fun pa0 =>
      match pa0 with
      | none => .ok (s, false)
      | some pa0 =>
        Phys.copyoutLoop pgdir fuel (s.memmove pa0 (va % PGSIZE)
          (buf.take (firstBytes va buf.length)))
          ((PGROUNDDOWN va + PGSIZE) % 2 ^ 32) (buf.drop (firstBytes va buf.length))) := by
  have offset : va - PGROUNDDOWN va = va % PGSIZE := by
    unfold PGROUNDDOWN PGSIZE
    omega
  conv_lhs => unfold Phys.copyoutLoop
  simp only
  rw [if_pos more, offset]
  rfl

/-- **What the rounds after the first store, together with what the first stored.** -/
theorem Wrote.append {va : Nat} {buf : List (BitVec 8)} (unaliased : Unaliased s pgdir)
    (small : va < 2 ^ 32) (short : buf.length < 2 ^ 32)
    (all : ∀ k < buf.length, Access s pgdir (pageAt va k)) (same : SameDir s s' pgdir)
    (first : s' = s.memmove (frameOf s pgdir (va / PGSIZE)) (va % PGSIZE)
    (buf.take (firstBytes va buf.length))) (rest :
    Wrote s' s'' pgdir ((PGROUNDDOWN va + PGSIZE) % 2 ^ 32) (buf.drop (firstBytes va buf.length))) :
    Wrote s s'' pgdir va buf := by
  have le := firstBytes_le va buf.length
  have next : ∀ k, firstBytes va buf.length ≤ k → k < buf.length →
      addrAt ((PGROUNDDOWN va + PGSIZE) % 2 ^ 32) (k - firstBytes va buf.length) = addrAt va k :=
    fun k late more => (addrAt_next late more).symm
  have nextPage : ∀ k, firstBytes va buf.length ≤ k → k < buf.length →
      pageAt ((PGROUNDDOWN va + PGSIZE) % 2 ^ 32) (k - firstBytes va buf.length) = pageAt va k := by
    intro k late more
    unfold pageAt
    rw [next k late more]
  have untouched : ∀ p x, (∀ k, firstBytes va buf.length ≤ k → k < buf.length →
      ¬ (p = frameOf s pgdir (pageAt va k) ∧ x = addrAt va k % PGSIZE)) →
      s''.byte p x = s'.byte p x := by
    intro p x none
    refine rest.miss p x fun j inside => ?_
    rw [List.length_drop] at inside
    have later := none (firstBytes va buf.length + j) (by omega) (by omega)
    have shift : firstBytes va buf.length + j - firstBytes va buf.length = j := by omega
    rwa [← nextPage _ (by omega) (by omega), ← next _ (by omega) (by omega), shift, ← same.frameOf]
      at later
  constructor
  · intro k b is
    have inside : k < buf.length := (List.getElem?_eq_some_iff.1 is).1
    by_cases early : k < firstBytes va buf.length
    · obtain ⟨_, page, offset⟩ := addrAt_first small early
      rw [untouched]
      · rw [page, offset, first, byte_memmove, if_pos (Nat.le_add_right _ _),
          Nat.add_sub_cancel_left, List.getElem?_take_of_lt early, is, Option.getD_some]
      · rintro j late more ⟨frame, sameOffset⟩
        have alike := unaliased.inj (all k inside) (all j more) frame
        have : k = j := addrAt_inj (by omega) (by omega) (addrAt_eq alike sameOffset)
        omega
    · have late : firstBytes va buf.length ≤ k := by omega
      have hit := rest.hit (k - firstBytes va buf.length) b (by
        rw [List.getElem?_drop, Nat.add_sub_cancel' late, is])
      rwa [next k late inside, nextPage k late inside, same.frameOf] at hit
  · intro p x none
    rw [untouched p x fun k _ more => none k more, first]
    by_cases here : p = frameOf s pgdir (va / PGSIZE)
    · subst here
      rw [byte_memmove]
      split
      · next above =>
          have missed : (buf.take (firstBytes va buf.length))[x - va % PGSIZE]? = Option.none := by
            rw [List.getElem?_eq_none_iff, List.length_take]
            by_contra inside
            have early : x - va % PGSIZE < firstBytes va buf.length := by omega
            obtain ⟨_, page, offset⟩ := addrAt_first small early
            refine none (x - va % PGSIZE) (by omega) ⟨by rw [page], ?_⟩
            rw [offset]
            omega
          rw [missed, Option.getD_none]
      · rfl
    · exact byte_congr (mem_memmove s _ _ here) x

theorem copyoutLoop_tabled (fuel : Nat) (s : Phys) (va : Nat) (buf : List (BitVec 8))
    (unaliased : Unaliased s pgdir) (small : va < 2 ^ 32) (short : buf.length < 2 ^ 32)
    (enough : buf.length ≤ fuel) (tabled : Tabled s pgdir va buf.length) :
    ∃ s' ok, Phys.copyoutLoop pgdir fuel s va buf = .ok (s', ok) ∧
      CopiedOut s s' pgdir va buf ok := by
  induction fuel generalizing s va buf with
  | zero =>
    have empty : buf = [] := List.eq_nil_of_length_eq_zero (Nat.le_zero.1 enough)
    subst empty
    exact ⟨s, true, rfl, .empty s pgdir va⟩
  | succ fuel ih =>
    by_cases more : 0 < buf.length
    · have inside : va / PGSIZE < 2 ^ 20 := by
        unfold PGSIZE
        omega
      have pos : 0 < firstBytes va buf.length := firstBytes_pos more
      have le := firstBytes_le va buf.length
      obtain ⟨here, later⟩ := (tabled_iff small more).1 tabled
      have zero : pageAt va 0 = va / PGSIZE := (addrAt_first small pos).2.1
      rw [copyoutLoop_round fuel more, uva2ka_known inside here, ok_bind]
      by_cases access : Access s pgdir (va / PGSIZE)
      · have same := unaliased.memmove access (va % PGSIZE) (buf.take (firstBytes va buf.length))
        rw [if_pos access]
        have tabled' : Tabled (s.memmove (frameOf s pgdir (va / PGSIZE)) (va % PGSIZE)
            (buf.take (firstBytes va buf.length))) pgdir ((PGROUNDDOWN va + PGSIZE) % 2 ^ 32)
            (buf.drop (firstBytes va buf.length)).length := by
          rw [List.length_drop]
          intro k below before
          rw [same.tables]
          exact later access k below fun j earlier => (same.access _).1 (before j earlier)
        obtain ⟨s', ok, done, copied⟩ := ih _ ((PGROUNDDOWN va + PGSIZE) % 2 ^ 32)
          (buf.drop (firstBytes va buf.length)) (same.unaliased unaliased)
            (Nat.mod_lt _ (by decide))
          (by rw [List.length_drop]; omega) (by rw [List.length_drop]; omega) tabled'
        have all :
            (∀ k < (buf.drop (firstBytes va buf.length)).length,
            Access (s.memmove (frameOf s pgdir (va / PGSIZE))
              (va % PGSIZE) (buf.take (firstBytes va buf.length))) pgdir
              (pageAt ((PGROUNDDOWN va + PGSIZE) % 2 ^ 32) k)) ↔
                ∀ k < buf.length, Access s pgdir (pageAt va k) := by
          have next : ∀ k, firstBytes va buf.length ≤ k → k < buf.length →
              pageAt ((PGROUNDDOWN va + PGSIZE) % 2 ^ 32)
              (k - firstBytes va buf.length) = pageAt va k := by
            intro k late below
            unfold pageAt
            rw [← addrAt_next late below]
          rw [List.length_drop]
          constructor
          · intro rest k below
            by_cases early : k < firstBytes va buf.length
            · rw [(addrAt_first small early).2.1]
              exact access
            · rw [← next k (by omega) below]
              exact (same.access _).1 (rest _ (by omega))
          · intro whole k below
            rw [same.access]
            have := whole (firstBytes va buf.length + k) (by omega)
            rwa [← next _ (by omega) (by omega), Nat.add_sub_cancel_left] at this
        refine ⟨s', ok, done, same.trans copied.same, copied.iff.trans all, fun success => ?_,
          fun p outside => ?_⟩
        · exact .append unaliased small short (all.1 (copied.iff.1 success)) same rfl
            (copied.wrote success)
        · rw [copied.kept p fun v is => ?_, mem_memmove s _ _ (outside _ access)]
          rw [same.frameOf]
          exact outside v ((same.access v).1 is)
      · rw [if_neg access]
        refine ⟨s, false, rfl, .refl s pgdir,
          iff_of_false Bool.false_ne_true fun all => access (zero ▸ all 0 more), nofun,
          fun _ _ => rfl⟩
    · have empty : buf = [] := List.eq_nil_of_length_eq_zero (by omega)
      subst empty
      exact ⟨s, true, rfl, .empty s pgdir va⟩

theorem copyoutLoop_missing (fuel : Nat) (s : Phys) (va : Nat) (buf : List (BitVec 8))
    (unaliased : Unaliased s pgdir) (small : va < 2 ^ 32) (enough : buf.length ≤ fuel)
    (untabled : ¬ Tabled s pgdir va buf.length) :
    Phys.copyoutLoop pgdir fuel s va buf = .error .nullPte := by
  induction fuel generalizing s va buf with
  | zero => exact (untabled fun k absurdity => by omega).elim
  | succ fuel ih =>
    have more : 0 < buf.length :=
      Nat.pos_of_ne_zero fun empty => untabled fun k absurdity => by omega
    have inside : va / PGSIZE < 2 ^ 20 := by
      unfold PGSIZE
      omega
    have pos : 0 < firstBytes va buf.length := firstBytes_pos more
    rw [copyoutLoop_round fuel more]
    cases here : table s.mem pgdir (va / PGSIZE / NPTENTRIES) with
    | none => rw [uva2ka_missing inside here, error_bind]
    | some t =>
      have known : table s.mem pgdir (va / PGSIZE / NPTENTRIES) ≠ none := by
        rw [here]
        exact nofun
      rw [tabled_iff small more] at untabled
      have access : Access s pgdir (va / PGSIZE) := by
        by_contra not
        exact untabled ⟨known, fun is => absurd is not⟩
      have same := unaliased.memmove access (va % PGSIZE) (buf.take (firstBytes va buf.length))
      rw [uva2ka_known inside known, if_pos access, ok_bind]
      refine ih _ _ _ (same.unaliased unaliased) (Nat.mod_lt _ (by decide))
        (by rw [List.length_drop]; omega) ?_
      intro tabled
      refine untabled ⟨known, fun _ k below before => ?_⟩
      have :=
        tabled k (by rw [List.length_drop]; exact below) fun j earlier =>
        (same.access _).2 (before j earlier)
      rwa [same.tables] at this

/-- **`copyout` is total and exact on a directory without aliases exactly when the tables it needs
are there.** -/
theorem copyout_exact_iff {va : Nat} {buf : List (BitVec 8)} (unaliased : Unaliased s pgdir)
    (small : va < 2 ^ 32) (short : buf.length < 2 ^ 32) :
    (∃ s' ok, s.copyout pgdir va buf = .ok (s', ok) ∧ CopiedOut s s' pgdir va buf ok) ↔
      Tabled s pgdir va buf.length := by
  constructor
  · rintro ⟨s', ok, done, _⟩
    by_contra untabled
    have fault := copyoutLoop_missing buf.length s va buf unaliased small (Nat.le_refl _) untabled
    exact nomatch fault.symm.trans done
  · exact copyoutLoop_tabled buf.length s va buf unaliased small short (Nat.le_refl _)

theorem unaliased_oneTable : Unaliased (oneTable 0) 0x400 := by
  have only : ∀ {v}, Access (oneTable 0) 0x400 v → v = 0 := by
    intro v access
    by_contra other
    have zero : entry (oneTable 0).mem 0x400 v = 0 := by
      rw [entry_oneTable (by decide), update_of_ne (by omega)]
    rw [Access, zero, present_zero] at access
    exact Bool.false_ne_true access.1
  refine ⟨fun first second _ => (only first).trans (only second).symm, fun access => ?_,
    fun {v d} access => ?_⟩
  · rw [only access]
    decide
  · rw [only access, table_oneTable (by decide)]
    by_cases here : d = 0
    · subst here
      decide
    · rw [update_of_ne here]
      exact nofun

/-- A byte is copied to address 0. -/
theorem copyout_exact_iff_byte : ∃ s' ok, (oneTable 0).copyout 0x400 0 [42] = .ok (s', ok) ∧
    CopiedOut (oneTable 0) s' 0x400 0 [42] ok := by
  refine (copyout_exact_iff unaliased_oneTable (by decide) (by decide)).2 fun k below _ => ?_
  have first : k = 0 := by
    simp only [List.length_singleton] at below
    omega
  subst first
  decide

/-- Nothing is mapped at `0x400000`, and its page table is missing: `copyout` reads through the null
pointer. -/
theorem copyout_reads_null : (oneTable 0).copyout 0x400 0x400000 [42] = .error .nullPte ∧
    ¬ ∃ s' ok, (oneTable 0).copyout 0x400 0x400000 [42] = .ok (s', ok) ∧
      CopiedOut (oneTable 0) s' 0x400 0x400000 [42] ok := by
  have fault : (oneTable 0).copyout 0x400 0x400000 [42] = .error .nullPte := rfl
  refine ⟨fault, ?_⟩
  rintro ⟨s', ok, done, _⟩
  exact nomatch fault.symm.trans done

end Xv6.Vm
