/-
**No entry that a lookup can reach names a free inode.**

`Names.Access`: what lookups can reach, from the root and from every current directory.
`Names.Seen`: that, and what is held as an open file. `Names.Safe`: the entries of what is seen all
name allocated inodes. Only `..` can go wrong, of a directory that is held or on the way from a
current directory, when its parent loses its last link and its last holder.
-/

import Xv6.Names.Count

namespace Xv6

open Lib Finset Function

namespace Names

/-- What lookups can reach. -/
def Access (a : Names) (d : Nat) : Prop :=
  ∃ s, (s = ROOTINO ∨ ∃ p, a.hold (.cwd p) = some s) ∧ Relation.ReflTransGen a.tree.Leads s d

/-- What lookups can reach, and what is held. -/
def Seen (a : Names) (d : Nat) : Prop := a.Access d ∨ a.Held d

/-- **The entries of what lookups can reach or somebody holds name allocated inodes.** -/
def Safe (a : Names) : Prop := ∀ d, a.Seen d → ∀ i, a.tree.Leads d i → a.tree.Live i

/-- The parent of every directory that lookups can reach or somebody holds is linked or held. -/
def Parented (a : Names) : Prop := ∀ d, a.Seen d → a.tree.Dir d →
  a.tree.nlink (a.tree.parent d) ≠ 0 ∨ a.Held (a.tree.parent d)

/-- **Whatever the call changes leaves every parent linked or held.** There are `n` inodes. -/
def Considerate (n : Nat) (a : Names) (e : Fin NPROC × NameOp) : Prop :=
  ∀ cwd, a.hold (.cwd e.1) = some cwd → ∀ c, a.Edits n e.1 cwd c e.2 → c.Parented

/-- No count that the call raises is the greatest `short`. -/
def Unwrapped (a : Names) (e : Fin NPROC × NameOp) : Prop :=
  ∀ cwd, a.hold (.cwd e.1) = some cwd → ∀ d j, a.tree.Adds cwd d (some j) e.2 →
    (a.tree.nlink j).toInt < 32767

/-- The counts are right, and exactly what is linked or held is allocated. -/
structure Whole (a : Names) (n : Nat) : Prop where
  tree : ∃ leak, a.tree.Sound n leak
  held : ∀ i, a.Held i → a.tree.Live i
  kept : ∀ i, a.tree.Live i → a.tree.nlink i = 0 → a.Held i

section Access

variable {a b c : Names} {n d i cwd : Nat} {p : Fin NPROC} {op : NameOp} {path name : List UInt8}

theorem Access.root : a.Access ROOTINO := ⟨_, .inl rfl, .refl⟩

theorem Access.currentDir (current : a.hold (.cwd p) = some i) : a.Access i :=
  ⟨_, .inr ⟨p, current⟩, .refl⟩

theorem Access.tail (access : a.Access d) (leads : a.tree.Leads d i) : a.Access i := by
  obtain ⟨s, start, path⟩ := access
  exact ⟨s, start, path.tail leads⟩

/-- Induction along the entries that lookups follow. -/
theorem Access.invariant {P : Nat → Prop} (access : a.Access d) (root : P ROOTINO)
    (current : ∀ p i, a.hold (.cwd p) = some i → P i)
    (along : ∀ d i, a.Access d → P d → a.tree.Leads d i → P i) : P d := by
  obtain ⟨s, start, path⟩ := access
  induction path with
  | refl => exact start.elim (fun same => same ▸ root) fun ⟨p, holds⟩ => current p s holds
  | tail before leads ih => exact along _ _ ⟨s, start, before⟩ ih leads

/-- In a safe name space everything seen is allocated. -/
theorem Safe.live (safe : a.Safe) (whole : a.Whole n) (seen : a.Seen d) : a.tree.Live d := by
  obtain ⟨leak, sound⟩ := whole.tree
  rcases seen with access | held
  · exact access.invariant sound.root.live (fun p i holds => whole.held i ⟨_, holds⟩)
      fun d i access' _ leads => safe d (.inl access') i leads
  · exact whole.held d held

theorem Access.walk {parent : Bool} {name' : List UInt8} (access : a.Access i)
    (found : a.tree.walk i parent path name = some (d, name')) : a.Access d :=
  Tree.walk_invariant (fun _ _ => Access.tail) access found

theorem Access.start (current : a.Access cwd) (path : List UInt8) :
    a.Access (if path.head? = some 47 then ROOTINO else cwd) := by
  split
  · exact .root
  · exact current

/-- A lookup ends at what can be reached. -/
theorem Access.resolve (current : a.Access cwd) (found : a.tree.resolve cwd path = some i) :
    a.Access i := by
  obtain ⟨⟨j, name⟩, walked, rfl⟩ := Option.map_eq_some_iff.mp found
  exact (current.start path).walk walked

theorem Access.resolveParent (current : a.Access cwd)
    (found : a.tree.resolveParent cwd path = some (d, name)) : a.Access d :=
  (current.start path).walk found

theorem Access.adds {r : Option Nat} (current : a.Access cwd) (adds : a.tree.Adds cwd d r op) :
    a.Access d := by
  cases op with
  | mkdir path =>
    obtain ⟨_, name, found, _⟩ := adds
    exact current.resolveParent found
  | mknod path =>
    obtain ⟨_, name, found, _⟩ := adds
    exact current.resolveParent found
  | «open» path =>
    obtain ⟨_, _, name, found, _⟩ := adds
    exact current.resolveParent found
  | link old new =>
    obtain ⟨_, _, _, _, name, found, _⟩ := adds
    exact current.resolveParent found
  | _ => exact adds.elim

theorem Access.target {r : Option Nat} {t' : Tree} (current : a.Access cwd)
    (attach : a.tree.Attach n d i r t') (adds : a.tree.Adds cwd d r op) (live : a.tree.Live i) :
    a.Access i := by
  have differs := attach.ne
  cases attach with
  | file _ _ free => exact absurd live free
  | dir _ _ free => exact absurd live free
  | link =>
    cases op with
    | mkdir => exact absurd (Option.some.inj adds.1).symm differs
    | mknod => cases adds.1
    | «open» => cases adds.2.1
    | link old new =>
      obtain ⟨j, found, _, same, _⟩ := adds
      cases same
      exact current.resolve found
    | _ => exact adds.elim

theorem Edits.holds (edits : a.Edits n p cwd c op) (current : a.Access cwd) (held : c.Held i) :
    a.Seen i ∨ ¬ a.tree.Live i := by
  rcases edits.held_cases held
    with old | ⟨⟨path, found⟩ | ⟨path, d, name, de, q, parent, entry, rfl⟩ | free, _⟩
  · exact .inl (.inr old)
  · exact .inl (.inl (current.resolve found))
  · exact .inl (.inl ((current.resolveParent parent).tail (Tree.leads_of_found entry)))
  · exact .inr free

theorem Edits.current (edits : a.Edits n p cwd c op) (current : a.Access cwd) {q : Fin NPROC}
    (holds : c.hold (.cwd q) = some i) : a.Access i := by
  have old : c.hold = a.hold → a.Access i := fun same => .currentDir (same ▸ holds)
  cases op with
  | link => exact old edits.1
  | unlink => exact old edits.1
  | mkdir => exact old edits.1
  | mknod => exact old edits.1
  | «open» path omode =>
    obtain ⟨r, opens, _⟩ := edits
    rcases opens with kept | ⟨j, fd, _, _, update⟩
    · exact old kept
    · rw [update, update_of_ne (by rintro ⟨⟩)] at holds
      exact .currentDir holds
  | close fd =>
    rw [edits.2] at holds
    split at holds
    · rw [update_of_ne (by rintro ⟨⟩)] at holds
      exact .currentDir holds
    · exact .currentDir holds
  | chdir path =>
    have change := edits.2
    split at change
    · exact old change
    · next j found =>
      split at change
      · rw [change, update_apply] at holds
        split at holds
        · cases holds
          exact current.resolve found
        · exact .currentDir holds
      · exact old change
  | fork np =>
    rcases edits.2 with kept | ⟨_, copied⟩
    · exact old kept
    · rw [copied] at holds
      simp only at holds
      split at holds <;> exact .currentDir holds
  | exit =>
    rw [edits.2] at holds
    simp only at holds
    split at holds
    · cases holds
    · exact .currentDir holds

/-! ### What lookups can reach behind a call -/

/-- An edit makes nothing reachable but what was reachable and new inodes. -/
theorem Edits.access (edits : a.Edits n p cwd c op) (whole : a.Whole n) (current : a.Access cwd)
    (access : c.Access d) : a.Access d ∨ ¬ a.tree.Live d := by
  obtain ⟨leak, sound⟩ := whole.tree
  refine access.invariant (P := fun d => a.Access d ∨ ¬ a.tree.Live d) (.inl .root)
    (fun q i holds => .inl (edits.current current holds)) ?_
  rintro x y _ before ⟨de, member, used, rfl⟩
  have change := edits.change
  generalize c.tree = t' at change member
  -- An entry that was there before leads to what could be reached.
  have old : de ∈ a.tree.ents x → a.Access de.inum.toNat ∨ ¬ a.tree.Live de.inum.toNat := by
    intro member'
    rcases before with access' | free
    · exact .inl (access'.tail ⟨de, member', used, rfl⟩)
    · rw [sound.plain x fun dir => free dir.live] at member'
      cases member'
  cases change with
  | same => exact old member
  | unlink _ dir at' proper empty =>
    rw [Tree.ents_unlink] at member
    rcases Tree.mem_clear at' member with kept | rfl
    · exact old kept
    · exact absurd rfl used
  | @attach d' i r _ attach adds only =>
    by_cases new : x = i
    · subst new
      rcases attach.mem_new sound.toShape member with self | up
      · rw [self]
        exact before
      · rw [up]
        exact .inl (current.adds adds)
    · by_cases here : x = d'
      · subst here
        rcases attach.mem_ents ((attach.number sound.toShape).2.trans_le sound.small) member
          with kept | target
        · exact old kept
        · rw [target]
          by_cases live : a.tree.Live i
          · exact .inl (current.target attach adds live)
          · exact .inr live
      · rw [attach.ents (.inl new) here] at member
        exact old member

theorem Edits.seen (edits : a.Edits n p cwd c op) (whole : a.Whole n) (current : a.Access cwd)
    (seen : c.Seen d) : a.Seen d ∨ ¬ a.tree.Live d := by
  rcases seen with access | held
  · exact (edits.access whole current access).imp_left .inl
  · exact edits.holds current held

/-- After an edit the parents of the directories seen are still there. -/
theorem Edits.parent_live (edits : a.Edits n p cwd c op) (whole : a.Whole n) (safe : a.Safe)
    (current : a.Access cwd) {leak : Nat → Nat} (sound' : c.tree.Sound n leak) (seen : c.Seen d)
    (dir : c.tree.Dir d) : c.tree.Live (c.tree.parent d) := by
  obtain ⟨_, sound⟩ := whole.tree
  have change := edits.change
  rcases edits.seen whole current seen with seen' | free
  · have live := safe.live whole seen'
    have dir' : a.tree.Dir d := (change.type live).symm.trans dir
    rw [change.parent sound.toShape dir']
    exact change.live (safe d seen' _ (sound.toShape.leads_parent dir'))
  · -- A new directory: its parent has an entry for it.
    generalize c.tree = t' at change sound' dir
    cases change with
    | same => exact absurd dir.live free
    | unlink =>
      unfold Tree.Dir at dir
      rw [Tree.type_unlink] at dir
      exact absurd (Tree.Dir.live dir) free
    | @attach d' i r _ attach adds =>
      have new : d = i := ((attach.live_iff d).mp dir.live).resolve_left free
      subst new
      have link : 0 < t'.edge d' d := (attach.added sound.toShape).pos.mpr (.inr ⟨rfl, rfl⟩)
      rw [(sound'.up d' d link dir).2]
      exact (attach.live_iff d').mpr (.inl attach.dir'.live)

/-- What is reachable after the collection was so before. -/
theorem access_collect (access : c.collect.Access d) : c.Access d := by
  refine access.invariant .root (fun p i holds => .currentDir holds) ?_
  rintro x y _ before ⟨de, member, used⟩
  refine before.tail ⟨de, ?_, used⟩
  by_cases freed : x ∈ {i | c.tree.nlink i = 0 ∧ ¬ c.Held i}
  · rw [show c.collect.tree.ents x = [] from if_pos freed] at member
    cases member
  · rw [show c.collect.tree.ents x = c.tree.ents x from Tree.ents_prune freed] at member
    exact member

/-- **Freeing what nothing refers to is safe** exactly if the parents are linked or held. -/
theorem safe_collect_iff {leak : Nat → Nat} (sound : c.tree.Sound n leak)
    (parents : ∀ d, c.Seen d → c.tree.Dir d → c.tree.Live (c.tree.parent d)) :
    c.collect.Safe ↔ c.Parented := by
  have sound' :
      c.collect.tree.Sound n (c.tree.leakAfter n leak {i | c.tree.nlink i = 0 ∧ ¬ c.Held i}) :=
    sound.prune fun _ member => member.1
  constructor
  · intro safe d seen dir
    have leads : ∀ {x y}, x ∉ {i | c.tree.nlink i = 0 ∧ ¬ c.Held i} → c.tree.Leads x y →
        c.collect.tree.Leads x y := by
      rintro x y kept ⟨de, member, used⟩
      refine ⟨de, ?_, used⟩
      rw [show c.collect.tree.ents x = c.tree.ents x from Tree.ents_prune kept]
      exact member
    -- Nothing on the way to `d` was freed.
    have reach : c.collect.Seen d ∧ d ∉ {i | c.tree.nlink i = 0 ∧ ¬ c.Held i} := by
      rcases seen with access | held
      · refine (access.invariant
          (P := fun d => c.collect.Access d ∧ d ∉ {i | c.tree.nlink i = 0 ∧ ¬ c.Held i})
          ⟨.root, fun freed => sound.root_linked freed.1⟩
          (fun p i holds => ⟨.currentDir holds, fun freed => freed.2 ⟨_, holds⟩⟩) ?_).imp_left .inl
        rintro x y _ ⟨access', kept⟩ along
        exact ⟨access'.tail (leads kept along),
          (Tree.live_prune.mp (safe x (.inl access') y (leads kept along))).1⟩
      · exact ⟨.inr held, fun freed => freed.2 held⟩
    have kept := (Tree.live_prune.mp
      (safe d reach.1 _ (leads reach.2 (sound.toShape.leads_parent dir)))).1
    by_contra neither
    rw [not_or, not_not] at neither
    exact kept neither
  · intro parented d seen i leads
    have seen' : c.Seen d := seen.imp_left access_collect
    obtain ⟨dir, _, rfl | rfl | link⟩ := sound'.leads_cases leads
    · exact dir.live
    · obtain ⟨kept, dir'⟩ := Tree.dir_prune.mp dir
      have same : c.collect.tree.ents d = c.tree.ents d := Tree.ents_prune kept
      rw [Tree.parent, same, ← Tree.parent]
      refine Tree.live_prune.mpr ⟨fun freed => ?_, parents d seen' dir'⟩
      exact (parented d seen' dir').elim (fun linked => linked freed.1) fun held => freed.2 held
    · exact sound'.live d _ link

/-! ### Steps -/

/-- An edit that takes no link and no holder away leaves every parent in use. -/
theorem Edits.parented_of_grows (edits : a.Edits n p cwd c op) (whole : a.Whole n) (safe : a.Safe)
    (current : a.Access cwd) (links : ∀ i, a.tree.nlink i ≠ 0 → c.tree.nlink i ≠ 0)
    (holders : ∀ i, a.Held i → c.Held i)
    (new : ∀ d, ¬ a.tree.Live d → c.tree.Dir d → c.tree.nlink (c.tree.parent d) ≠ 0) :
    c.Parented := by
  obtain ⟨_, sound⟩ := whole.tree
  intro d seen dir
  rcases edits.seen whole current seen with seen' | free
  · have dir' : a.tree.Dir d := (edits.change.type (safe.live whole seen')).symm.trans dir
    rw [edits.change.parent sound.toShape dir']
    have live := safe d seen' _ (sound.toShape.leads_parent dir')
    by_cases linked : a.tree.nlink (a.tree.parent d) = 0
    · exact .inr (holders _ (whole.kept _ live linked))
    · exact .inl (links _ linked)
  · exact .inl (new d free dir)

/-- The calls that may remove links and holders. -/
def Removes : NameOp → Prop
  | .unlink _ | .close _ | .chdir _ | .exit => True
  | _ => False

theorem Edits.holders (edits : a.Edits n p cwd c op) (grows : ¬ Removes op) (held : a.Held i) :
    c.Held i := by
  obtain ⟨h, holds⟩ := held
  have same : c.hold = a.hold → c.Held i := fun same => ⟨h, same ▸ holds⟩
  cases op with
  | link => exact same edits.1
  | mkdir => exact same edits.1
  | mknod => exact same edits.1
  | «open» path omode =>
    obtain ⟨r, opens, _⟩ := edits
    rcases opens with kept | ⟨j, fd, _, unused, update⟩
    · exact same kept
    · refine ⟨h, ?_⟩
      have other : h ≠ .fd p fd := by
        rintro rfl
        rw [unused] at holds
        cases holds
      rw [update, update_of_ne other]
      exact holds
  | fork np =>
    rcases edits.2 with kept | ⟨unused, copied⟩
    · exact same kept
    · refine ⟨h, ?_⟩
      have other : h.proc ≠ np := by
        intro mine
        rw [unused h mine] at holds
        cases holds
      rw [copied]
      exact (if_neg other).trans holds
  | _ => exact absurd trivial grows

/-- Only the calls that remove links or holders can leave a parent unused. -/
theorem Edits.parented (edits : a.Edits n p cwd c op) (whole : a.Whole n) (safe : a.Safe)
    (current : a.Access cwd)
    (below : ∀ d j, a.tree.Adds cwd d (some j) op → (a.tree.nlink j).toInt < 32767)
    (grows : ¬ Removes op) : c.Parented := by
  obtain ⟨leak, sound⟩ := whole.tree
  have change := edits.change
  have sound' := change.sound sound below
  have unlinked : ∀ x : Int16, 1 ≤ x.toInt → x ≠ 0 := by
    rintro x positive rfl
    exact absurd positive (by decide)
  refine edits.parented_of_grows whole safe current ?_ (fun i => edits.holders grows) ?_
  · intro i linked
    generalize c.tree = t' at change sound'
    cases change with
    | same => exact linked
    | unlink which => exact absurd (which ▸ trivial) grows
    | @attach d j r _ attach adds =>
      by_cases target : i = j
      · subst target
        have link : 0 < t'.edge d i := (attach.added sound.toShape).pos.mpr (.inr ⟨rfl, rfl⟩)
        exact unlinked _ (sound'.linked_of_edge link)
      · rw [attach.nlink sound.toShape]
        split
        · next raised =>
          have some' := raised.resolve_left target
          subst some'
          have count := sound.count' i
          refine unlinked _ ?_
          rw [toInt_succ (below d i adds)]
          omega
        · exact linked
  · intro d free dir
    generalize c.tree = t' at change sound' dir
    cases change with
    | same => exact absurd dir.live free
    | unlink which => exact absurd (which ▸ trivial) grows
    | @attach d' j r _ attach adds =>
      have new : d = j := ((attach.live_iff d).mp dir.live).resolve_left free
      subst new
      have link : 0 < t'.edge d' d := (attach.added sound.toShape).pos.mpr (.inr ⟨rfl, rfl⟩)
      rw [(sound'.up d' d link dir).2]
      exact unlinked _ (sound'.linked_of_subdir link dir)

/-- The calls that remove something have one outcome. -/
theorem Edits.unique (edits : a.Edits n p cwd b op) (edits' : a.Edits n p cwd c op)
    (removes : Removes op) : c = b := by
  cases op with
  | unlink path =>
    refine Names.ext ?_ (edits'.1.trans edits.1.symm)
    have first := edits.2
    have second := edits'.2
    unfold Tree.Unlinks at first second
    split at first
    · next none' =>
      rw [none'] at second
      exact second.trans first.symm
    · next d name found =>
      rw [found] at second
      simp only at second
      split at first
      · next dots =>
        rw [if_pos dots] at second
        exact second.trans first.symm
      · next proper =>
        rw [if_neg proper] at second
        split at first
        · next none' =>
          rw [none'] at second
          exact second.trans first.symm
        · next de q entry =>
          rw [entry] at second
          rcases first with ⟨same, dir, full⟩ | ⟨same, _, empty⟩
          · rcases second with ⟨same', _⟩ | ⟨_, _, empty⟩
            · exact same'.trans same.symm
            · exact absurd (empty dir) full
          · rcases second with ⟨_, dir, full⟩ | ⟨same', _⟩
            · exact absurd (empty dir) full
            · exact same'.trans same.symm
  | close fd => exact Names.ext (edits'.1.trans edits.1.symm) (edits'.2.trans edits.2.symm)
  | chdir path =>
    refine Names.ext (edits'.1.trans edits.1.symm) ?_
    have first := edits.2
    have second := edits'.2
    split at first
    · next none' =>
      rw [none'] at second
      exact second.trans first.symm
    · next i found =>
      rw [found] at second
      exact second.trans first.symm
  | exit => exact Names.ext (edits'.1.trans edits.1.symm) (edits'.2.trans edits.2.symm)
  | _ => exact removes.elim

/-- **One step**: a call keeps the name space safe if and only if it leaves every parent linked or
held. -/
theorem Whole.step_iff {e : Fin NPROC × NameOp} (whole : a.Whole n) (safe : a.Safe)
    (unwrapped : a.Unwrapped e) (step : a.Step n e b) :
    b.Whole n ∧ (b.Safe ↔ a.Considerate n e) := by
  unfold Step at step
  split at step
  · next idle =>
    subst step
    refine ⟨whole, iff_of_true safe fun cwd current => ?_⟩
    rw [idle] at current
    cases current
  · next cwd current =>
    obtain ⟨c, edits, rfl⟩ := step
    obtain ⟨leak, sound⟩ := whole.tree
    have below := unwrapped cwd current
    have sound' := edits.change.sound sound below
    have access : a.Access cwd := .currentDir current
    have held := edits.held whole.held
    refine ⟨⟨⟨_, sound'.prune fun _ member => member.1⟩, ?_, ?_⟩, ?_⟩
    · intro i held'
      exact Tree.live_prune.mpr ⟨fun freed => freed.2 held', held i held'⟩
    · intro i live unlinked
      obtain ⟨kept, _⟩ := Tree.live_prune.mp live
      by_contra none'
      refine kept ⟨?_, none'⟩
      rw [← Tree.nlink_prune (t := c.tree) kept]
      exact unlinked
    · rw [safe_collect_iff sound' fun d => edits.parent_live whole safe access sound']
      refine ⟨fun parented cwd' current' c' edits' => ?_,
        fun considerate => considerate cwd current c edits⟩
      rw [current] at current'
      cases current'
      by_cases removes : Removes e.2
      · rw [edits.unique edits' removes]
        exact parented
      · exact edits'.parented whole safe access below removes

end Access

end Names

end Xv6
