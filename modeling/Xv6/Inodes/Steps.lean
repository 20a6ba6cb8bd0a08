import Xv6.Inodes.Pointers

/-!
# The steps of the inode cache

Each step is one of those for which there is a rule.  `LooksUp` is what a step must not do for
`Linked` to go on: look up an inode that has no links.
-/

namespace Xv6.Inodes

open Files References Transition

variable {P : Type} [DecidableEq P] [Fintype P] {s t : Icache P} {p q : P} {i j : Ptr} {pc : Pc}
variable {e : Entry P} {dev inum ninodes : ℕ} {a : Action P}

/-- The inode is allocated and has links. -/
def Named (s : Icache P) (k : ℕ × ℕ) : Prop := (s.disk k).type ≠ 0 ∧ (s.disk k).nlink ≠ 0

/-- What is looked up by its number has links. -/
def LooksUp (s : Icache P) : Action P → Prop
  | .iget _ dev inum => Named s (dev, inum)
  | .dirlookup _ dp inum => Named s ((s.entry dp).dev, inum)
  | _ => True

/-- What a step preserves.  An entry that is in use stays with its inode. -/
structure Keeps (s t : Icache P) (guard : Prop) : Prop where
  inv : Inv t
  key : ∀ j, (t.entry j).key = (s.entry j).key ∨ (s.entry j).ref = 0
  linked : guard → Linked s → Linked t

theorem Inv.keeps_change (h : Inv s) {guard : Prop} (hchange : Changes s p i e pc)
    (hgrasp : ∀ j, pc.grasp = some j → (s.pc p).grasp = some j) (hfresh : pc.fresh = none)
    (hfrees : Linked s → pc.frees = some i →
      e.ref = 1 ∧ e.nlink = 0 ∧ (s.disk (s.entry i).key).nlink = 0) :
    Keeps s ((s.setEntry i e).goto p pc) guard := by
  refine ⟨h.change hchange, fun j => Or.inl hchange.key_eq, fun _ hlinked => ?_⟩
  refine hlinked.change hchange hgrasp (fun k hk => ?_) (hfrees hlinked) h.owner
  rw [hfresh] at hk
  cases hk

/-! ## Pointers -/

omit [DecidableEq P] [Fintype P] in
theorem cached_eq_some (h : s.cached dev inum = some i) :
    0 < (s.entry i).ref ∧ (s.entry i).key = (dev, inum) := by
  have hfound := List.find?_some h
  simp only [decide_eq_true_eq] at hfound
  exact ⟨hfound.1, Prod.ext hfound.2.1 hfound.2.2⟩

omit [DecidableEq P] [Fintype P] in
theorem cached_eq_none (h : s.cached dev inum = none) (hpos : 0 < (s.entry i).ref) :
    (s.entry i).key ≠ (dev, inum) := by
  intro hkey
  have hnot := List.find?_eq_none.mp h i (List.mem_finRange i)
  simp only [decide_eq_true_eq] at hnot
  exact hnot ⟨hpos, congrArg Prod.fst hkey, congrArg Prod.snd hkey⟩

omit [DecidableEq P] [Fintype P] in
theorem empty_eq_some (h : s.empty = some i) : (s.entry i).ref = 0 := by
  simpa using List.find?_some h

theorem Inv.iget (h : Inv s) (hstep : s.iget p dev inum = .next t) :
    Keeps s t ((s.disk (dev, inum)).type ≠ 0 ∧ (∀ q, (s.pc q).fresh ≠ some (dev, inum)) ∧
      ∀ q j, (s.pc q).frees = some j → (s.entry j).key ≠ (dev, inum)) := by
  rw [Icache.iget] at hstep
  split at hstep
  · rename_i i hcached
    cases hstep
    obtain ⟨hpos, hkey⟩ := cached_eq_some hcached
    refine ⟨h.gain hpos, fun j => Or.inl key_got, fun hlookup hlinked => ?_⟩
    have hsame : ({ s.entry i with ref := (s.entry i).ref + 1 } : Entry P).key = (dev, inum) :=
      hkey
    refine hlinked.got ?_ fun q hq => hlookup.2.2 q i hq hkey
    rw [hsame]
    exact ⟨hlookup.1, hlookup.2.1⟩
  · rename_i hcached
    split at hstep
    · rename_i i hempty
      cases hstep
      have hzero := empty_eq_some hempty
      refine ⟨?_, fun j => ?_, fun hlookup hlinked => ?_⟩
      · exact h.fill (k := (dev, inum)) hzero fun j hj => cached_eq_none hcached hj
      · by_cases hj : j = i
        · exact Or.inr (hj ▸ hzero)
        · exact Or.inl (congrArg Entry.key (got_entry_of_ne hj))
      · refine hlinked.got ⟨hlookup.1, hlookup.2.1⟩ fun q hq => ?_
        have hpos := h.pos_of_owns (Pc.owns_of_frees hq)
        omega
    · cases hstep

omit [DecidableEq P] [Fintype P] in
theorem Linked.not_named (h : Linked s) {k : ℕ × ℕ} (hnamed : Named s k) :
    (∀ q, (s.pc q).fresh ≠ some k) ∧ ∀ q j, (s.pc q).frees = some j → (s.entry j).key ≠ k := by
  constructor
  · intro q hq
    exact hnamed.2 (h.fresh q k hq).2
  · rintro q j hq rfl
    exact hnamed.2 (h.frees q j hq).2.2

theorem Inv.keeps_iget (h : Inv s) (hstep : s.iget p dev inum = .next t) :
    Keeps s t (Named s (dev, inum)) := by
  have hkeeps := h.iget hstep
  refine ⟨hkeeps.inv, hkeeps.key, fun hnamed hbefore => ?_⟩
  exact hkeeps.linked ⟨hnamed.1, hbefore.not_named hnamed⟩ hbefore

theorem Inv.keeps_idup (h : Inv s) {guard : Prop}
    (huses : i ∈ s.vars p ∨ i ∈ s.files) : Keeps s (s.idup p i) guard := by
  have hgrasp : s.Refers Pc.grasp i := by
    rcases huses with hvars | hfiles
    · exact Or.inr ⟨p, Or.inl hvars⟩
    · exact Or.inl hfiles
  refine ⟨h.gain (h.pos_of_grasp hgrasp), fun j => Or.inl key_got, fun _ hlinked => ?_⟩
  refine hlinked.got (hlinked.born i hgrasp) fun q hq => ?_
  have hsole := h.sole (Pc.hand_of_grip (Pc.grip_of_grasp (Pc.grasp_of_frees hq)))
    (hlinked.frees q i hq).1
  rcases huses with hvars | hfiles
  · exact hsole.2.1 p hvars
  · exact hsole.1 hfiles

/-! ## Locks and contents -/

section Places

variable {guard : Prop} (h : Inv s)
include h

/-- A lock that nobody has is taken. -/
theorem Inv.keeps_acquire (hlock : (s.entry i).lock = none)
    (hplace : s.pc p = .idle ∧ (i ∈ s.vars p ∨ i ∈ s.files) ∧ pc = .locking i ∨
      s.pc p = .putting i ∧ pc = .testing i) :
    Keeps s ((s.setEntry i { s.entry i with lock := some p }).goto p pc) guard := by
  have howns : (s.pc p).owns = none ∧ pc.owns = some i := by
    rcases hplace with ⟨hpc, -, rfl⟩ | ⟨hpc, rfl⟩ <;> rw [hpc] <;> exact ⟨rfl, rfl⟩
  have hview : pc.hand = (s.pc p).hand ∧ pc.grip = (s.pc p).grip ∧ pc.grasp = (s.pc p).grasp ∧
      pc.dirty = none ∧ pc.frees = none ∧ pc.fresh = none := by
    rcases hplace with ⟨hpc, -, rfl⟩ | ⟨hpc, rfl⟩ <;> rw [hpc] <;>
      exact ⟨rfl, rfl, rfl, rfl, rfl, rfl⟩
  refine h.keeps_change ?_ (fun j hj => hview.2.2.1 ▸ hj) hview.2.2.2.2.2 fun _ hfrees => ?_
  · constructor
    case key => rfl
    case ref => rfl
    case only =>
      rintro j (hj | hj)
      · rw [howns.1] at hj
        cases hj
      · exact (Option.some.inj (howns.2.symm.trans hj)).symm
    case lock => exact Or.inr (Or.inr rfl)
    case other =>
      intro q _ hq
      rw [hlock] at hq
      cases hq
    case owner => exact fun _ => rfl
    case hand => exact hview.1
    case grip => exact Or.inl hview.2.1
    case kept =>
      intro _ _
      rcases hplace with ⟨-, hvars | hfiles, -⟩ | ⟨hpc, -⟩
      · exact Or.inr ⟨p, Or.inl hvars⟩
      · exact Or.inl hfiles
      · refine Or.inr ⟨p, Or.inr ?_⟩
        rw [hpc]
        rfl
    case valid =>
      intro _ hlocking htesting
      rcases hplace with ⟨-, -, rfl⟩ | ⟨-, rfl⟩
      · exact absurd rfl hlocking
      · exact absurd rfl htesting
    case synced =>
      intro hpos hvalid _ hothers
      refine h.synced i hpos hvalid fun q hq => ?_
      by_cases hqp : q = p
      · subst hqp
        have hlocked := Pc.owns_of_dirty hq
        rw [howns.1] at hlocked
        cases hlocked
      · exact hothers q hqp hq
    case typed =>
      rcases hplace with ⟨-, -, rfl⟩ | ⟨-, rfl⟩ <;> rintro (hpc | hpc) <;> cases hpc
  · rw [hview.2.2.2.2.1] at hfrees
    cases hfrees

/-- The process gives its lock back; what it leaves is valid and agrees with the disk, or it is
not valid. -/
theorem Inv.keeps_release (hlock : (s.entry i).lock = some p) {valid : Bool}
    (hplace : s.pc p = .idle ∧ valid = (s.entry i).valid ∧ pc = .idle ∨
      s.pc p = .testing i ∧ valid = (s.entry i).valid ∧ pc = .dropping i ∨
      s.pc p = .freed i ∧ valid = false ∧ pc = .dropping i) :
    Keeps s ((s.setEntry i { s.entry i with lock := none, valid := valid }).goto p pc) guard := by
  have hview : pc.owns = none ∧ pc.hand = (s.pc p).hand ∧ pc.grasp = none ∧ pc.frees = none ∧
      pc.fresh = none ∧ ∀ j, (s.pc p).owns = some j → j = i := by
    rcases hplace with ⟨hpc, -, rfl⟩ | ⟨hpc, -, rfl⟩ | ⟨hpc, -, rfl⟩ <;> rw [hpc] <;>
      exact ⟨rfl, rfl, rfl, rfl, rfl, fun j hj => by cases hj <;> rfl⟩
  refine h.keeps_change ?_ (fun j hj => ?_) hview.2.2.2.2.1 fun _ hfrees => ?_
  · constructor
    case key => rfl
    case ref => rfl
    case only =>
      rintro j (hj | hj)
      · exact hview.2.2.2.2.2 j hj
      · rw [hview.1] at hj
        cases hj
    case lock => exact Or.inr (Or.inl rfl)
    case other =>
      intro q hq hother
      exact absurd (Option.some.inj (hother.symm.trans hlock)) hq
    case owner =>
      intro hj
      rw [hview.1] at hj
      cases hj
    case hand => exact hview.2.1
    case grip =>
      rcases hplace with ⟨hpc, -, rfl⟩ | ⟨hpc, -, rfl⟩ | ⟨hpc, -, rfl⟩
      · exact Or.inl (by rw [hpc])
      · exact Or.inr ⟨rfl, by rw [hpc]; rfl⟩
      · exact Or.inr ⟨rfl, by rw [hpc]; rfl⟩
    case kept => exact fun hnone => absurd rfl hnone
    case valid => exact fun hsome => by cases hsome
    case synced =>
      intro hpos hvalid _ hothers
      have hbefore : (s.entry i).valid = true ∧ (s.pc p).dirty = none := by
        rcases hplace with ⟨hpc, rfl, -⟩ | ⟨hpc, rfl, -⟩ | ⟨-, rfl, -⟩
        · exact ⟨hvalid, by rw [hpc]; rfl⟩
        · exact ⟨hvalid, by rw [hpc]; rfl⟩
        · cases hvalid
      refine h.synced i hpos hbefore.1 fun q hq => ?_
      by_cases hqp : q = p
      · subst hqp
        rw [hbefore.2] at hq
        cases hq
      · exact hothers q hqp hq
    case typed =>
      rcases hplace with ⟨-, -, rfl⟩ | ⟨-, -, rfl⟩ | ⟨-, -, rfl⟩ <;> rintro (hpc | hpc) <;>
        cases hpc
  · rw [hview.2.2.1] at hj
    cases hj
  · rw [hview.2.2.2.1] at hfrees
    cases hfrees

/-- Whoever has locked an entry changes what the lock protects, and keeps the lock. -/
theorem Inv.keeps_contents (hlock : (s.entry i).lock = some p) (hkey : e.key = (s.entry i).key)
    (href : e.ref = (s.entry i).ref) (hsame : e.lock = (s.entry i).lock)
    (hbefore : ∀ j, (s.pc p).owns = some j → j = i) (hafter : ∀ j, pc.owns = some j → j = i)
    (hhand : pc.hand = (s.pc p).hand) (hgrip : pc.grip = (s.pc p).grip)
    (hgrasp : pc.grasp = (s.pc p).grasp) (hfresh : pc.fresh = none) (hvalid : e.valid = true)
    (hsynced : pc.dirty ≠ some i → e.toDinode = s.disk e.key ∧ e.type ≠ 0)
    (htyped : pc = .updating i ∨ pc = .truncated i → e.type ≠ 0)
    (hfrees : Linked s → pc.frees = some i →
      e.ref = 1 ∧ e.nlink = 0 ∧ (s.disk (s.entry i).key).nlink = 0) :
    Keeps s ((s.setEntry i e).goto p pc) guard := by
  refine h.keeps_change ?_ (fun j hj => hgrasp ▸ hj) hfresh hfrees
  constructor
  case key => exact hkey
  case ref => exact href
  case only => exact fun j hj => hj.elim (hbefore j) (hafter j)
  case lock => exact Or.inl hsame
  case other =>
    intro q hq hother
    exact absurd (Option.some.inj (hother.symm.trans hlock)) hq
  case owner => exact fun _ => hsame.trans hlock
  case hand => exact hhand
  case grip => exact Or.inl hgrip
  case kept =>
    intro _ hnone
    rw [hlock] at hnone
    cases hnone
  case valid => exact fun _ _ _ => hvalid
  case synced => exact fun _ _ hdirty _ => hsynced hdirty
  case typed => exact htyped

/-- Only the place of the process changes, and it is not about an entry. -/
theorem Inv.keeps_place (howns : (s.pc p).owns = none ∧ pc.owns = none)
    (hhand : (s.pc p).hand = none ∧ pc.hand = none) (hfresh : pc.fresh = none) :
    Keeps s (s.goto p pc) guard := by
  have hgrip : ∀ {pc : Pc}, pc.hand = none → pc.grip = none := fun hpc =>
    Option.eq_none_iff_forall_ne_some.mpr fun j hj => by
      rw [Pc.hand_of_grip hj] at hpc
      cases hpc
  have hclean : ∀ j, (s.pc p).dirty ≠ some j := fun j hj => by
    have hj := Pc.owns_of_dirty hj
    rw [howns.1] at hj
    cases hj
  have hsame : s.goto p pc = (s.setEntry 0 (s.entry 0)).goto p pc := by rw [setEntry_same]
  rw [hsame]
  refine h.keeps_change ?_ (fun j hj => ?_) hfresh fun _ hj => ?_
  · constructor
    case key => rfl
    case ref => rfl
    case only =>
      rintro j (hj | hj)
      · rw [howns.1] at hj
        cases hj
      · rw [howns.2] at hj
        cases hj
    case lock => exact Or.inl rfl
    case other => exact fun _ _ _ => rfl
    case owner =>
      intro hj
      rw [howns.2] at hj
      cases hj
    case hand => exact hhand.2.trans hhand.1.symm
    case grip => exact Or.inl ((hgrip hhand.2).trans (hgrip hhand.1).symm)
    case kept => exact fun hsome hnone => absurd hnone hsome
    case valid =>
      intro hlock _ _
      refine h.valid p 0 hlock ?_ ?_
      · intro hpc
        rw [hpc] at howns
        cases howns.1
      · intro hpc
        rw [hpc] at howns
        cases howns.1
    case synced =>
      intro hpos hvalid _ hothers
      refine h.synced 0 hpos hvalid fun q hq => ?_
      by_cases hqp : q = p
      · subst hqp
        exact hclean 0 hq
      · exact hothers q hqp hq
    case typed =>
      rintro (rfl | rfl)
      · cases howns.2
      · cases howns.2
  · have hhandj := Pc.hand_of_grip (Pc.grip_of_grasp hj)
    rw [hhand.2] at hhandj
    cases hhandj
  · have hownsj := Pc.owns_of_frees hj
    rw [howns.2] at hownsj
    cases hownsj

end Places

/-! ## The next step of a call -/

theorem Inv.keeps_locking (h : Inv s) {guard : Prop} (hpc : s.pc p = .locking i)
    (hstep : s.proceed p ninodes (.locking i) = .next t) : Keeps s t guard := by
  have howns : (s.pc p).owns = some i := by
    rw [hpc]
    rfl
  have hlock := h.owner p i howns
  have hclean : ∀ q, (s.pc q).dirty ≠ some i := fun q hq => by
    rw [h.owns_unique howns (Pc.owns_of_dirty hq), hpc] at hq
    cases hq
  have honly : ∀ j, (s.pc p).owns = some j → j = i := fun j hj =>
    (Option.some.inj (howns.symm.trans hj)).symm
  rw [Icache.proceed] at hstep
  split at hstep
  · rename_i hvalid
    cases hstep
    have hgoto : s.goto p .idle = (s.setEntry i (s.entry i)).goto p .idle := by
      rw [setEntry_same]
    rw [hgoto]
    refine h.keeps_contents hlock rfl rfl rfl honly (fun j hj => by cases hj) ?_ ?_ ?_ rfl hvalid
      (fun _ => h.synced i (h.pos_of_owns howns) hvalid hclean)
      (fun hj => by rcases hj with hj | hj <;> cases hj) (fun _ hj => by cases hj) <;>
      rw [hpc] <;> rfl
  · dsimp only at hstep
    split at hstep
    · cases hstep
    · rename_i htype
      cases hstep
      refine h.keeps_contents hlock rfl rfl rfl honly (fun j hj => by cases hj) ?_ ?_ ?_ rfl rfl
        (fun _ => ⟨rfl, htype⟩)
        (fun hj => by rcases hj with hj | hj <;> cases hj) (fun _ hj => by cases hj) <;>
        rw [hpc] <;> rfl

/-- `iput` frees the inode if there are no links and no other references. -/
theorem Inv.keeps_testing (h : Inv s) {guard : Prop} (hpc : s.pc p = .testing i)
    (hstep : s.proceed p ninodes (.testing i) = .next t) : Keeps s t guard := by
  have howns : (s.pc p).owns = some i := by
    rw [hpc]
    rfl
  have hlock := h.owner p i howns
  have hclean : ∀ q, (s.pc q).dirty ≠ some i := fun q hq => by
    rw [h.owns_unique howns (Pc.owns_of_dirty hq), hpc] at hq
    cases hq
  have honly : ∀ j, (s.pc p).owns = some j → j = i := fun j hj =>
    (Option.some.inj (howns.symm.trans hj)).symm
  rw [Icache.proceed] at hstep
  split at hstep
  · rename_i htest
    obtain ⟨hvalid, hnlink, hone⟩ := htest
    cases hstep
    have hsynced := h.synced i (h.pos_of_owns howns) hvalid hclean
    have hgoto : s.goto p (.truncating i) =
        (s.setEntry i (s.entry i)).goto p (.truncating i) := by rw [setEntry_same]
    rw [hgoto]
    refine h.keeps_contents hlock rfl rfl rfl honly (fun j hj => by cases hj; rfl) ?_ ?_ ?_ rfl
      hvalid (fun _ => hsynced) (fun hj => by rcases hj with hj | hj <;> cases hj)
      (fun _ _ => ⟨hone, hnlink, hsynced.1 ▸ hnlink⟩) <;>
      rw [hpc] <;> rfl
  · cases hstep
    exact h.keeps_release hlock (Or.inr (Or.inl ⟨hpc, rfl, rfl⟩))

/-- The fields are cleared, the type in the end. -/
theorem Inv.keeps_clearing (h : Inv s) {guard : Prop}
    (hplace : s.pc p = .truncating i ∧ pc = .truncated i ∧ e.type = (s.entry i).type ∨
      s.pc p = .clearing i ∧ pc = .cleared i)
    (hentry : e.key = (s.entry i).key ∧ e.ref = (s.entry i).ref ∧ e.lock = (s.entry i).lock ∧
      e.valid = (s.entry i).valid ∧ e.nlink = (s.entry i).nlink) :
    Keeps s ((s.setEntry i e).goto p pc) guard := by
  obtain ⟨hkey, href, hsame, hvalid, hnlink⟩ := hentry
  have hfrees : (s.pc p).frees = some i := by
    rcases hplace with ⟨hpc, -, -⟩ | ⟨hpc, -⟩ <;> rw [hpc] <;> rfl
  have howns := Pc.owns_of_frees hfrees
  have hlock := h.owner p i howns
  have hclean : ∀ q, (s.pc q).dirty ≠ some i := fun q hq => by
    rw [h.owns_unique howns (Pc.owns_of_dirty hq)] at hq
    rcases hplace with ⟨hpc, -, -⟩ | ⟨hpc, -⟩ <;> rw [hpc] at hq <;> cases hq
  have hbefore : (s.entry i).valid = true := by
    refine h.valid p i hlock ?_ ?_
    · rcases hplace with ⟨hpc, -, -⟩ | ⟨hpc, -⟩ <;> rw [hpc] <;> exact Pc.noConfusion
    · rcases hplace with ⟨hpc, -, -⟩ | ⟨hpc, -⟩ <;> rw [hpc] <;> exact Pc.noConfusion
  have hsynced := h.synced i (h.pos_of_owns howns) hbefore hclean
  have hview : pc.owns = some i ∧ pc.hand = (s.pc p).hand ∧ pc.grip = (s.pc p).grip ∧
      pc.grasp = (s.pc p).grasp ∧ pc.fresh = none ∧ pc.dirty = some i := by
    rcases hplace with ⟨hpc, rfl, -⟩ | ⟨hpc, rfl⟩ <;> rw [hpc] <;>
      exact ⟨rfl, rfl, rfl, rfl, rfl, rfl⟩
  obtain ⟨hafter, hhand, hgrip, hgrasp, hfresh, hdirty⟩ := hview
  refine h.keeps_contents hlock hkey href hsame
    (fun j hj => (Option.some.inj (howns.symm.trans hj)).symm)
    (fun j hj => (Option.some.inj (hafter.symm.trans hj)).symm) hhand hgrip hgrasp hfresh
    (hvalid.trans hbefore) (fun hnot => absurd hdirty hnot) ?_ fun hlinked _ => ?_
  · rintro (hpc | hpc)
    · rcases hplace with ⟨-, rfl, -⟩ | ⟨-, rfl⟩ <;> cases hpc
    · rcases hplace with ⟨-, -, htype⟩ | ⟨-, rfl⟩
      · rw [htype]
        exact hsynced.2
      · cases hpc
  · have hl := hlinked.frees p i hfrees
    exact ⟨href.trans hl.1, hnlink.trans hl.2.1, hl.2.2⟩

theorem Inv.keeps_write {pc' : Pc} (h : Inv s) {guard : Prop} (hplace : s.pc p = pc')
    (hwrites : Writes i pc' pc) : Keeps s (s.iupdate p i pc) guard :=
  ⟨h.write hplace hwrites, fun _ => Or.inl rfl, fun _ hlinked => hlinked.write hplace hwrites h⟩

theorem Inv.keeps_searching (h : Inv s) {guard : Prop} {type : InodeType}
    (hpc : s.pc p = .searching dev inum type)
    (hstep : s.proceed p ninodes (.searching dev inum type) = .next t) : Keeps s t guard := by
  rw [Icache.proceed] at hstep
  split at hstep
  · split at hstep
    · rename_i hfree
      cases hstep
      exact ⟨h.alloc hpc hfree, fun _ => Or.inl rfl, fun _ hlinked =>
        hlinked.alloc hpc hfree ⟨type.2, rfl⟩⟩
    · cases hstep
      refine h.keeps_place ⟨?_, rfl⟩ ⟨?_, rfl⟩ rfl <;> rw [hpc] <;> rfl
  · cases hstep

/-- Only the process that has allocated an inode gets a pointer to it. -/
theorem Inv.keeps_allocated (h : Inv s) {guard : Prop} (hpc : s.pc p = .allocated dev inum)
    (hstep : s.proceed p ninodes (.allocated dev inum) = .next t) : Keeps s t guard := by
  have hplace : Keeps s (s.goto p .idle) True := by
    refine h.keeps_place ⟨?_, rfl⟩ ⟨?_, rfl⟩ rfl <;> rw [hpc] <;> rfl
  have hkeeps := hplace.inv.iget hstep
  refine ⟨hkeeps.inv, hkeeps.key, fun _ hbefore => ?_⟩
  have hfresh : (s.pc p).fresh = some (dev, inum) := by
    rw [hpc]
    rfl
  refine hkeeps.linked ⟨(hbefore.fresh p _ hfresh).1, fun q hq => ?_, fun q j hq hkey => ?_⟩
    (hplace.linked trivial hbefore)
  · by_cases hqp : q = p
    · subst hqp
      rw [goto_pc_self] at hq
      cases hq
    · rw [goto_pc_of_ne hqp] at hq
      exact hqp (hbefore.single q p _ hq hfresh)
  · by_cases hqp : q = p
    · subst hqp
      rw [goto_pc_self] at hq
      cases hq
    · rw [goto_pc_of_ne hqp] at hq
      have hborn := hbefore.born j (Or.inr ⟨q, Or.inr (Pc.grasp_of_frees hq)⟩)
      exact hborn.2 p (hfresh.trans (congrArg some hkey.symm))

/-! ## Every step -/

theorem Inv.keeps_proceed (h : Inv s) {guard : Prop}
    (hstep : s.proceed p ninodes (s.pc p) = .next t) : Keeps s t guard := by
  cases hpc : s.pc p with
  | idle =>
      rw [hpc] at hstep
      cases hstep
  | locking i =>
      rw [hpc] at hstep
      exact h.keeps_locking hpc hstep
  | updating i =>
      rw [hpc] at hstep
      cases hstep
      exact h.keeps_write hpc .update
  | putting i =>
      rw [hpc, Icache.proceed] at hstep
      split at hstep
      · rename_i hlock
        cases hstep
        exact h.keeps_acquire hlock (Or.inr ⟨hpc, rfl⟩)
      · cases hstep
  | testing i =>
      rw [hpc] at hstep
      exact h.keeps_testing hpc hstep
  | truncating i =>
      rw [hpc] at hstep
      cases hstep
      exact h.keeps_clearing (Or.inl ⟨hpc, rfl, rfl⟩) ⟨rfl, rfl, rfl, rfl, rfl⟩
  | truncated i =>
      rw [hpc] at hstep
      cases hstep
      exact h.keeps_write hpc .truncate
  | clearing i =>
      rw [hpc] at hstep
      cases hstep
      exact h.keeps_clearing (Or.inr ⟨hpc, rfl⟩) ⟨rfl, rfl, rfl, rfl, rfl⟩
  | cleared i =>
      rw [hpc] at hstep
      cases hstep
      exact h.keeps_write hpc .free
  | freed i =>
      rw [hpc] at hstep
      cases hstep
      have hlock := h.owner p i (by rw [hpc]; rfl)
      exact h.keeps_release hlock (Or.inr (Or.inr ⟨hpc, rfl, rfl⟩))
  | dropping i =>
      rw [hpc] at hstep
      cases hstep
      refine ⟨h.drop hpc, fun j => Or.inl ?_, fun _ hlinked => hlinked.drop hpc h⟩
      obtain ⟨n, -, hentry⟩ := dropped_entry s p i j
      show ((dropped s p i).entry j).key = (s.entry j).key
      rw [hentry]
      rfl
  | searching dev inum type =>
      rw [hpc] at hstep
      exact h.keeps_searching hpc hstep
  | allocated dev inum =>
      rw [hpc] at hstep
      exact h.keeps_allocated hpc hstep

/-- A pointer from the variables of a process is put. -/
theorem Inv.keeps_iput (h : Inv s) {guard : Prop} (hidle : s.pc p = .idle)
    (hi : i ∈ s.vars p) :
    Keeps s ((s.setVars p ((s.vars p).erase i)).goto p (.putting i)) guard := by
  have hmoves : Moves s ((s.setVars p ((s.vars p).erase i)).goto p (.putting i)) := by
    constructor
    case entry => rfl
    case disk => rfl
    case refers =>
      intro l hput hnone j
      refine or_congr Iff.rfl ⟨?_, ?_⟩
      · rintro ⟨q, hq⟩
        by_cases hqp : q = p
        · subst hqp
          rw [goto_pc_self, hput] at hq
          rcases hq with hq | hq
          · have hmem : j ∈ (s.setVars q ((s.vars q).erase i)).vars q := hq
            rw [setVars_self] at hmem
            exact ⟨q, Or.inl (Multiset.mem_of_mem_erase hmem)⟩
          · exact ⟨q, Or.inl (Option.some.inj hq ▸ hi)⟩
        · rw [goto_pc_of_ne hqp] at hq
          exact ⟨q, hq.imp_left fun hq => setVars_of_ne hqp ▸ hq⟩
      · rintro ⟨q, hq⟩
        refine ⟨q, ?_⟩
        by_cases hqp : q = p
        · subst hqp
          rw [goto_pc_self, hput]
          rw [hidle, hnone] at hq
          have hmem := hq.resolve_right (fun hnot => by cases hnot)
          by_cases hji : j = i
          · exact Or.inr (congrArg some hji.symm)
          · left
            show j ∈ (s.setVars q ((s.vars q).erase i)).vars q
            rw [setVars_self]
            exact (Multiset.mem_erase_of_ne hji).mpr hmem
        · rw [goto_pc_of_ne hqp]
          exact hq.imp_left fun hq => (setVars_of_ne hqp).symm ▸ hq
    case pc =>
      intro q
      by_cases hqp : q = p
      · subst hqp
        exact Or.inr ⟨hidle, i, goto_pc_self⟩
      · exact Or.inl (goto_pc_of_ne hqp)
  refine ⟨h.move hmoves (h.counted.congr (fun _ => rfl) fun o => ?_), fun _ => Or.inl rfl,
    fun _ hlinked => hlinked.move hmoves⟩
  cases o with
  | none => rfl
  | some q =>
      show (s.setVars p ((s.vars p).erase i)).vars q + _ = s.vars q + _
      by_cases hqp : q = p
      · subst hqp
        rw [goto_pc_self, setVars_self, hidle]
        show (s.vars q).erase i + {i} = s.vars q + 0
        rw [add_zero, add_comm, Multiset.singleton_add, Multiset.cons_erase hi]
      · rw [goto_pc_of_ne hqp, setVars_of_ne hqp]
        rfl

/-- A pointer of process `p` is in a `cwd` or a file structure afterwards. -/
structure Passed (s t : Icache P) (p : P) (i : Ptr) : Prop where
  vars : s.vars p = i ::ₘ t.vars p
  other : ∀ q, q ≠ p → t.vars q = s.vars q
  files : t.files = i ::ₘ s.files
  pc : t.pc = s.pc

omit [DecidableEq P] [Fintype P] in
theorem Passed.refers (h : Passed s t p i) {l : Pc → Option Ptr} :
    t.Refers l j ↔ s.Refers l j := by
  constructor
  · rintro (hfiles | ⟨q, hq | hq⟩)
    · rw [h.files] at hfiles
      rcases Multiset.mem_cons.mp hfiles with rfl | hfiles
      · exact Or.inr ⟨p, Or.inl (h.vars ▸ Multiset.mem_cons_self j _)⟩
      · exact Or.inl hfiles
    · refine Or.inr ⟨q, Or.inl ?_⟩
      by_cases hqp : q = p
      · subst hqp
        rw [h.vars]
        exact Multiset.mem_cons_of_mem hq
      · rwa [← h.other q hqp]
    · exact Or.inr ⟨q, Or.inr (h.pc ▸ hq)⟩
  · rintro (hfiles | ⟨q, hq | hq⟩)
    · exact Or.inl (h.files ▸ Multiset.mem_cons_of_mem hfiles)
    · by_cases hqp : q = p
      · subst hqp
        rw [h.vars] at hq
        rcases Multiset.mem_cons.mp hq with rfl | hq
        · exact Or.inl (h.files ▸ Multiset.mem_cons_self j _)
        · exact Or.inr ⟨q, Or.inl hq⟩
      · exact Or.inr ⟨q, Or.inl (h.other q hqp ▸ hq)⟩
    · exact Or.inr ⟨q, Or.inr (h.pc ▸ hq)⟩

omit [DecidableEq P] [Fintype P] in
theorem Passed.holds_some (h : Passed s t p i) :
    s.holds (some p) = i ::ₘ t.holds (some p) := by
  rw [Icache.holds, Icache.holds, h.vars, h.pc, Multiset.cons_add]

omit [DecidableEq P] [Fintype P] in
theorem Passed.holds_other (h : Passed s t p i) {o : Option P} (hsome : o ≠ some p)
    (hnone : o ≠ none) : t.holds o = s.holds o := by
  obtain ⟨q, rfl⟩ := Option.ne_none_iff_exists'.mp hnone
  have hqp : q ≠ p := fun hqp => hsome (congrArg some hqp)
  rw [Icache.holds, Icache.holds, h.other q hqp, h.pc]

theorem Inv.keeps_keep (h : Inv s) {guard : Prop} (hi : i ∈ s.vars p) :
    Keeps s ((s.setVars p ((s.vars p).erase i)).setFiles (i ::ₘ s.files)) guard := by
  have hpassed : Passed s ((s.setVars p ((s.vars p).erase i)).setFiles (i ::ₘ s.files)) p i := by
    refine ⟨?_, fun q hqp => setVars_of_ne hqp, rfl, rfl⟩
    show s.vars p = i ::ₘ (s.setVars p ((s.vars p).erase i)).vars p
    rw [setVars_self, Multiset.cons_erase hi]
  have hmoves : Moves s ((s.setVars p ((s.vars p).erase i)).setFiles (i ::ₘ s.files)) :=
    ⟨rfl, rfl, fun _ _ _ _ => hpassed.refers, fun _ => Or.inl rfl⟩
  refine ⟨h.move hmoves ?_, fun _ => Or.inl rfl, fun _ hlinked => hlinked.move hmoves⟩
  exact h.counted.pass (Option.some_ne_none p) (fun o hsome hnone =>
    hpassed.holds_other hsome hnone) hpassed.holds_some hpassed.files

theorem Inv.keeps_take (h : Inv s) {guard : Prop} (hi : i ∈ s.files) :
    Keeps s ((s.setVars p (i ::ₘ s.vars p)).setFiles (s.files.erase i)) guard := by
  have hpassed : Passed ((s.setVars p (i ::ₘ s.vars p)).setFiles (s.files.erase i)) s p i := by
    refine ⟨setVars_self, fun q hqp => (setVars_of_ne hqp).symm, ?_, rfl⟩
    exact (Multiset.cons_erase hi).symm
  have hmoves : Moves s ((s.setVars p (i ::ₘ s.vars p)).setFiles (s.files.erase i)) :=
    ⟨rfl, rfl, fun _ _ _ _ => hpassed.refers.symm, fun _ => Or.inl rfl⟩
  refine ⟨h.move hmoves ?_, fun _ => Or.inl rfl, fun _ hlinked => hlinked.move hmoves⟩
  exact h.counted.pass (Option.some_ne_none p).symm (fun o hnone hsome =>
    (hpassed.holds_other hsome hnone).symm) hpassed.files hpassed.holds_some

/-- What is kept in each step. -/
theorem Inv.keeps_step (h : Inv s) (hstep : Icache.step ninodes s a = .next t) :
    Keeps s t (LooksUp s a) := by
  cases a with
  | iget p dev inum =>
      rw [Icache.step] at hstep
      split at hstep
      · exact h.keeps_iget hstep
      · cases hstep
  | dirlookup p dp inum =>
      rw [Icache.step] at hstep
      split at hstep
      · rw [Icache.dirlookup] at hstep
        split at hstep
        · cases hstep
        · exact h.keeps_iget hstep
      · cases hstep
  | idup p i =>
      rw [Icache.step] at hstep
      split at hstep
      · rename_i huses
        cases hstep
        exact h.keeps_idup huses.2
      · cases hstep
  | ilock p i =>
      rw [Icache.step] at hstep
      split at hstep
      · rename_i huses
        rw [Icache.ilock] at hstep
        split at hstep
        · cases hstep
        split at hstep
        · rename_i hlock
          cases hstep
          exact h.keeps_acquire hlock (Or.inl ⟨huses.1, huses.2, rfl⟩)
        · cases hstep
      · cases hstep
  | iunlock p i =>
      rw [Icache.step] at hstep
      split at hstep
      · rename_i hidle
        rw [Icache.iunlock] at hstep
        split at hstep
        · cases hstep
        · rename_i hlock
          cases hstep
          rw [not_or, not_not] at hlock
          have hkeeps : Keeps s _ (LooksUp s (.iunlock p i)) :=
            h.keeps_release hlock.1 (Or.inl ⟨hidle, rfl, rfl⟩)
          have hgoto : (s.setEntry i { s.entry i with lock := none }).goto p .idle =
              s.setEntry i { s.entry i with lock := none } := by
            rw [Icache.goto, ← hidle]
            exact congrArg (fun pc => ({ s.setEntry i { s.entry i with lock := none } with
              pc := pc } : Icache P)) (Function.update_eq_self p s.pc)
          exact hgoto ▸ hkeeps
      · cases hstep
  | modify p i d =>
      rw [Icache.step] at hstep
      split at hstep
      · rename_i hplace
        obtain ⟨hidle, hlock, htype⟩ := hplace
        cases hstep
        have hvalid : (s.entry i).valid = true := by
          refine h.valid p i hlock ?_ ?_ <;> rw [hidle] <;> exact Pc.noConfusion
        have hclean : ∀ q, (s.pc q).dirty ≠ some i := fun q hq => by
          have hq' := h.owner q i (Pc.owns_of_dirty hq)
          rw [Option.some.inj (hq'.symm.trans hlock), hidle] at hq
          cases hq
        have hpos : 0 < (s.entry i).ref := h.pos_of_lock (hlock ▸ Option.some_ne_none p)
        have hsynced := h.synced i hpos hvalid hclean
        refine h.keeps_contents hlock rfl rfl rfl ?_ (fun j hj => by cases hj; rfl) ?_ ?_ ?_ rfl
          hvalid (fun hnot => absurd rfl hnot) (fun _ => ?_) (fun _ hj => by cases hj)
        · intro j hj
          rw [hidle] at hj
          cases hj
        · rw [hidle]
          rfl
        · rw [hidle]
          rfl
        · rw [hidle]
          rfl
        · show d.type ≠ 0
          rw [htype]
          exact hsynced.2
      · cases hstep
  | iput p i =>
      rw [Icache.step] at hstep
      split at hstep
      · rename_i hplace
        cases hstep
        exact h.keeps_iput hplace.1 hplace.2
      · cases hstep
  | ialloc p dev type =>
      rw [Icache.step] at hstep
      split at hstep
      · rename_i hidle
        cases hstep
        refine h.keeps_place ⟨?_, rfl⟩ ⟨?_, rfl⟩ rfl <;> rw [hidle] <;> rfl
      · cases hstep
  | keep p i =>
      rw [Icache.step] at hstep
      split at hstep
      · rename_i hplace
        cases hstep
        exact h.keeps_keep hplace.2
      · cases hstep
  | take p i =>
      rw [Icache.step] at hstep
      split at hstep
      · rename_i hplace
        cases hstep
        exact h.keeps_take hplace.2
      · cases hstep
  | proceed p => exact h.keeps_proceed hstep

end Xv6.Inodes
