import Xv6.Inodes.Machine
import Xv6.Lib.References

/-!
# What holds of the inode cache

`Inv` holds in every state: the references are counted, no inode is in the cache twice, and an
entry that is valid agrees with the disk unless somebody is just changing it.  `Linked` says who
can reach an inode that is being freed or that has just been allocated: nobody else, as long as
inodes without links are not looked up.

There is one rule for each kind of step.  Here an entry and the place of a process change
(`Inv.change`), or an inode is written (`Inv.write`).
-/

namespace Xv6.Inodes

open Files References Transition

variable {P : Type} {s t : Icache P} {p q : P} {i j : Ptr} {pc : Pc} {e : Entry P} {k : ℕ × ℕ}

/-! ## What the places mean -/

namespace Pc

/-- The pointer that is being put. -/
def hand : Pc → Option Ptr
  | .putting i | .testing i | .truncating i | .truncated i | .clearing i | .cleared i | .freed i
  | .dropping i => some i
  | _ => none

/-- The same, as long as the lock is still to be taken or given back. -/
def grip : Pc → Option Ptr
  | .dropping _ => none
  | pc => pc.hand

/-- The same, as long as the inode is not free. -/
def grasp : Pc → Option Ptr
  | .freed _ => none
  | pc => pc.grip

/-- The entry that a function has locked. -/
def owns : Pc → Option Ptr
  | .locking i | .updating i | .testing i | .truncating i | .truncated i | .clearing i
  | .cleared i | .freed i => some i
  | _ => none

/-- The entry that may differ from the disk. -/
def dirty : Pc → Option Ptr
  | .updating i | .truncated i | .cleared i | .freed i => some i
  | _ => none

/-- The entry that `iput` has begun to free, until its inode is free. -/
def frees : Pc → Option Ptr
  | .truncating i | .truncated i | .clearing i | .cleared i => some i
  | _ => none

/-- The inode that has been allocated, and has no entry yet. -/
def fresh : Pc → Option (ℕ × ℕ)
  | .allocated dev inum => some (dev, inum)
  | _ => none

theorem hand_of_grip (h : pc.grip = some i) : pc.hand = some i := by
  cases pc <;> first | exact h | cases h

theorem grip_of_grasp (h : pc.grasp = some i) : pc.grip = some i := by
  cases pc <;> first | exact h | cases h

theorem grip_cases (h : pc.grip = some i) : pc.grasp = some i ∨ pc = .freed i := by
  cases pc <;> first | exact Or.inl h | (cases h; exact Or.inr rfl)

theorem owns_of_dirty (h : pc.dirty = some i) : pc.owns = some i := by
  cases pc <;> first | exact h | cases h

theorem owns_of_frees (h : pc.frees = some i) : pc.owns = some i := by
  cases pc <;> first | exact h | cases h

theorem grasp_of_frees (h : pc.frees = some i) : pc.grasp = some i := by
  cases pc <;> first | exact h | cases h

end Pc

/-! ## The invariant -/

namespace Icache

/-- The pointers in the `cwd`s and file structures, and those of each process. -/
def holds (s : Icache P) : Option P → Multiset Ptr
  | none => s.files
  | some p => s.vars p + place (s.pc p).hand

/-- Somebody has a pointer, where those that are being put count in the places that `l` says. -/
def Refers (s : Icache P) (l : Pc → Option Ptr) (i : Ptr) : Prop :=
  i ∈ s.files ∨ ∃ p, i ∈ s.vars p ∨ l (s.pc p) = some i

end Icache

theorem refers_congr {l : Pc → Option Ptr} (h : s.Refers l i) (hfiles : t.files = s.files)
    (hvars : t.vars = s.vars) (hpc : ∀ q, l (s.pc q) = some i → l (t.pc q) = some i) :
    t.Refers l i := by
  rcases h with h | ⟨q, h | h⟩
  · exact Or.inl (hfiles ▸ h)
  · exact Or.inr ⟨q, Or.inl (hvars ▸ h)⟩
  · exact Or.inr ⟨q, Or.inr (hpc q h)⟩

theorem mem_hand (hhand : (s.pc p).hand = some i) : i ∈ s.holds (some p) := by
  refine Multiset.mem_add.mpr (Or.inr ?_)
  rw [hhand]
  exact Multiset.mem_singleton_self i

theorem mem_holds {l : Pc → Option Ptr} (hl : ∀ {pc : Pc}, l pc = some i → pc.hand = some i)
    (hi : s.Refers l i) : ∃ e, i ∈ s.holds e := by
  rcases hi with hi | ⟨q, hi | hi⟩
  · exact ⟨none, hi⟩
  · exact ⟨some q, Multiset.mem_add.mpr (Or.inl hi)⟩
  · refine ⟨some q, Multiset.mem_add.mpr (Or.inr ?_)⟩
    rw [hl hi]
    exact Multiset.mem_singleton_self i

structure Inv [Fintype P] (s : Icache P) : Prop where
  counted : Counted (fun i => (s.entry i).ref) s.holds
  unique : ∀ i j, 0 < (s.entry i).ref → 0 < (s.entry j).ref →
    (s.entry i).key = (s.entry j).key → i = j
  owner : ∀ p i, (s.pc p).owns = some i → (s.entry i).lock = some p
  kept : ∀ i, (s.entry i).lock ≠ none → s.Refers Pc.grip i
  synced : ∀ i, 0 < (s.entry i).ref → (s.entry i).valid = true →
    (∀ p, (s.pc p).dirty ≠ some i) →
    (s.entry i).toDinode = s.disk (s.entry i).key ∧ (s.entry i).type ≠ 0
  valid : ∀ p i, (s.entry i).lock = some p → s.pc p ≠ .locking i → s.pc p ≠ .testing i →
    (s.entry i).valid = true
  typed : ∀ p i, s.pc p = .updating i ∨ s.pc p = .truncated i → (s.entry i).type ≠ 0

/-- Nobody else has a pointer to an inode that is being freed, or to one that has just been
allocated. -/
structure Linked (s : Icache P) : Prop where
  born : ∀ i, s.Refers Pc.grasp i →
    (s.disk (s.entry i).key).type ≠ 0 ∧ ∀ q, (s.pc q).fresh ≠ some (s.entry i).key
  fresh : ∀ q k, (s.pc q).fresh = some k → (s.disk k).type ≠ 0 ∧ (s.disk k).nlink = 0
  single : ∀ q q' k, (s.pc q).fresh = some k → (s.pc q').fresh = some k → q = q'
  frees : ∀ p i, (s.pc p).frees = some i →
    (s.entry i).ref = 1 ∧ (s.entry i).nlink = 0 ∧ (s.disk (s.entry i).key).nlink = 0

namespace Inv

variable [Fintype P] (h : Inv s)
include h

theorem pos_of_grip (hi : s.Refers Pc.grip i) : 0 < (s.entry i).ref := by
  obtain ⟨e, he⟩ := mem_holds Pc.hand_of_grip hi
  exact h.counted.pos he

theorem pos_of_grasp (hi : s.Refers Pc.grasp i) : 0 < (s.entry i).ref := by
  obtain ⟨e, he⟩ := mem_holds (fun hpc => Pc.hand_of_grip (Pc.grip_of_grasp hpc)) hi
  exact h.counted.pos he

theorem pos_of_lock (hlock : (s.entry i).lock ≠ none) : 0 < (s.entry i).ref :=
  h.pos_of_grip (h.kept i hlock)

theorem pos_of_owns (howns : (s.pc p).owns = some i) : 0 < (s.entry i).ref := by
  apply h.pos_of_lock
  rw [h.owner p i howns]
  exact Option.some_ne_none p

/-- Two functions have not locked the same entry. -/
theorem owns_unique (hp : (s.pc p).owns = some i) (hq : (s.pc q).owns = some i) : q = p := by
  have hlock := h.owner p i hp
  rw [h.owner q i hq] at hlock
  exact Option.some.inj hlock

/-- If there is one reference, and `iput` works on it, then there is no other one. -/
theorem sole [DecidableEq P] (hhand : (s.pc p).hand = some i) (hone : (s.entry i).ref = 1) :
    i ∉ s.files ∧ (∀ q, i ∉ s.vars q) ∧ ∀ q, q ≠ p → (s.pc q).hand ≠ some i := by
  have hother : ∀ o, i ∈ s.holds o → o = some p := fun o ho =>
    h.counted.eq_of_one hone (mem_hand hhand) ho
  refine ⟨fun hmem => ?_, fun q hmem => ?_, fun q hq hmem => ?_⟩
  · exact Option.some_ne_none p (hother none hmem).symm
  · have hq := hother (some q) (Multiset.mem_add.mpr (Or.inl hmem))
    obtain rfl := Option.some.inj hq
    -- the process would have two of them
    have hle := h.counted.count_le (some q) i
    have htwo : (s.holds (some q)).count i = (s.vars q).count i + 1 := by
      rw [Icache.holds, hhand, place_some, Multiset.count_add, Multiset.count_singleton_self]
    have hpos := Multiset.count_pos.mpr hmem
    rw [htwo] at hle
    omega
  · exact hq (Option.some.inj (hother (some q) (mem_hand hmem)))

/-- Who works on a locked entry has a pointer that keeps the inode from being free. -/
theorem grasp_of_owns (howns : (s.pc p).owns = some i) (hpc : s.pc p ≠ .freed i) :
    s.Refers Pc.grasp i := by
  have hkept := h.kept i (by rw [h.owner p i howns]; exact Option.some_ne_none p)
  rcases hkept with hfiles | ⟨q, hvars | hgrip⟩
  · exact Or.inl hfiles
  · exact Or.inr ⟨q, Or.inl hvars⟩
  · rcases Pc.grip_cases hgrip with hgrasp | hfreed
    · exact Or.inr ⟨q, Or.inr hgrasp⟩
    · have hq : (s.pc q).owns = some i := by
        rw [hfreed]
        rfl
      rw [h.owns_unique howns hq] at hfreed
      exact absurd hfreed hpc

end Inv

/-! ## Updates -/

variable [DecidableEq P]

@[simp] theorem goto_pc_self : (s.goto p pc).pc p = pc := Function.update_self ..

theorem goto_pc_of_ne (hne : q ≠ p) : (s.goto p pc).pc q = s.pc q := Function.update_of_ne hne ..

omit [DecidableEq P] in
@[simp] theorem setEntry_self : (s.setEntry i e).entry i = e := Function.update_self ..

omit [DecidableEq P] in
theorem setEntry_of_ne (hne : j ≠ i) : (s.setEntry i e).entry j = s.entry j :=
  Function.update_of_ne hne ..

omit [DecidableEq P] in
theorem setEntry_same : s.setEntry i (s.entry i) = s := by
  rw [Icache.setEntry, Function.update_eq_self]

/-! ## An entry and the place of a process change -/

/-- Process `p` changes entry `i`, and is at `pc` afterwards. -/
structure Changes (s : Icache P) (p : P) (i : Ptr) (e : Entry P) (pc : Pc) : Prop where
  key : e.key = (s.entry i).key
  ref : e.ref = (s.entry i).ref
  /-- It does not have a lock on any other entry, before and afterwards. -/
  only : ∀ j, (s.pc p).owns = some j ∨ pc.owns = some j → j = i
  lock : e.lock = (s.entry i).lock ∨ e.lock = none ∨ e.lock = some p
  /-- What somebody else has locked does not change. -/
  other : ∀ q, q ≠ p → (s.entry i).lock = some q → e = s.entry i
  owner : pc.owns = some i → e.lock = some p
  hand : pc.hand = (s.pc p).hand
  grip : pc.grip = (s.pc p).grip ∨ e.lock = none ∧ (s.pc p).grip = some i
  kept : e.lock ≠ none → (s.entry i).lock = none → s.Refers Pc.grip i
  valid : e.lock = some p → pc ≠ .locking i → pc ≠ .testing i → e.valid = true
  synced : 0 < e.ref → e.valid = true → pc.dirty ≠ some i →
    (∀ q, q ≠ p → (s.pc q).dirty ≠ some i) → e.toDinode = s.disk e.key ∧ e.type ≠ 0
  typed : pc = .updating i ∨ pc = .truncated i → e.type ≠ 0

section Change

variable (hchange : Changes s p i e pc)
include hchange

omit [DecidableEq P] in
theorem Changes.entry_of_owns (hne : q ≠ p) (hlock : (s.entry j).lock = some q) :
    (s.setEntry i e).entry j = s.entry j := by
  by_cases hj : j = i
  · subst hj
    rw [setEntry_self]
    exact hchange.other q hne hlock
  · exact setEntry_of_ne hj

omit [DecidableEq P] in
theorem Changes.key_eq : ((s.setEntry i e).entry j).key = (s.entry j).key := by
  by_cases hj : j = i
  · subst hj
    rw [setEntry_self]
    exact hchange.key
  · rw [setEntry_of_ne hj]

omit [DecidableEq P] in
theorem Changes.ref_eq : ((s.setEntry i e).entry j).ref = (s.entry j).ref := by
  by_cases hj : j = i
  · subst hj
    rw [setEntry_self]
    exact hchange.ref
  · rw [setEntry_of_ne hj]

omit [DecidableEq P] in
theorem Changes.lock_cases (hlock : ((s.setEntry i e).entry j).lock = some q) :
    q = p ∨ (s.entry j).lock = some q := by
  by_cases hj : j = i
  · subst hj
    rw [setEntry_self] at hlock
    rcases hchange.lock with hsame | hnone | hself
    · exact Or.inr (hsame ▸ hlock)
    · rw [hnone] at hlock
      cases hlock
    · exact Or.inl (Option.some.inj (hlock.symm.trans hself))
  · rw [setEntry_of_ne hj] at hlock
    exact Or.inr hlock

theorem Inv.change [Fintype P] (h : Inv s) : Inv ((s.setEntry i e).goto p pc) := by
  have hentry : ∀ j, ((s.setEntry i e).goto p pc).entry j = (s.setEntry i e).entry j :=
    fun j => rfl
  have hdisk : ((s.setEntry i e).goto p pc).disk = s.disk := rfl
  have hpc : ∀ q, q ≠ p → ((s.setEntry i e).goto p pc).pc q = s.pc q := fun q hq =>
    goto_pc_of_ne hq
  constructor
  case counted =>
    refine h.counted.congr (fun j => ?_) fun o => ?_
    · exact hchange.ref_eq
    · cases o with
      | none => rfl
      | some q =>
          by_cases hq : q = p
          · subst hq
            simp only [Icache.holds, goto_pc_self, hchange.hand]
            rfl
          · simp only [Icache.holds, hpc q hq]
            rfl
  case unique =>
    intro j j' hj hj' hkey
    rw [hentry, hchange.ref_eq] at hj hj'
    rw [hentry, hentry, hchange.key_eq, hchange.key_eq] at hkey
    exact h.unique j j' hj hj' hkey
  case owner =>
    intro q j howns
    rw [hentry]
    by_cases hq : q = p
    · subst hq
      rw [goto_pc_self] at howns
      obtain rfl := hchange.only j (Or.inr howns)
      rw [setEntry_self]
      exact hchange.owner howns
    · rw [hpc q hq] at howns
      have hlock := h.owner q j howns
      rwa [hchange.entry_of_owns hq hlock]
  case kept =>
    intro j hlock
    rw [hentry] at hlock
    have hbefore : s.Refers Pc.grip j := by
      by_cases hj : j = i
      · subst hj
        rw [setEntry_self] at hlock
        by_cases hnone : (s.entry j).lock = none
        · exact hchange.kept hlock hnone
        · exact h.kept j hnone
      · rw [setEntry_of_ne hj] at hlock
        exact h.kept j hlock
    refine refers_congr hbefore rfl rfl fun q hq => ?_
    by_cases hqp : q = p
    · subst hqp
      rw [goto_pc_self]
      rcases hchange.grip with hsame | ⟨hnone, hi⟩
      · rwa [hsame]
      · -- `i` has been unlocked, but `j` is locked
        obtain rfl := Option.some.inj (hq.symm.trans hi)
        rw [setEntry_self] at hlock
        exact absurd hnone hlock
    · rwa [hpc q hqp]
  case synced =>
    intro j hpos hvalid hdirty
    rw [hentry, hchange.ref_eq] at hpos
    rw [hentry] at hvalid ⊢
    rw [hdisk]
    have hothers : ∀ q, q ≠ p → (s.pc q).dirty ≠ some j := fun q hq => by
      rw [← hpc q hq]
      exact hdirty q
    by_cases hj : j = i
    · subst hj
      rw [setEntry_self] at hvalid ⊢
      refine hchange.synced (hchange.ref ▸ hpos) hvalid ?_ hothers
      have hp := hdirty p
      rwa [goto_pc_self] at hp
    · rw [setEntry_of_ne hj] at hvalid ⊢
      refine h.synced j hpos hvalid fun q hq => ?_
      by_cases hqp : q = p
      · subst hqp
        exact hj (hchange.only j (Or.inl (Pc.owns_of_dirty hq)))
      · exact hothers q hqp hq
  case valid =>
    intro q j hlock hlocking htesting
    rw [hentry] at hlock ⊢
    by_cases hqp : q = p
    · subst hqp
      rw [goto_pc_self] at hlocking htesting
      by_cases hj : j = i
      · subst hj
        rw [setEntry_self] at hlock ⊢
        exact hchange.valid hlock hlocking htesting
      · rw [setEntry_of_ne hj] at hlock ⊢
        refine h.valid q j hlock ?_ ?_
        · intro hbefore
          exact hj (hchange.only j (Or.inl (by rw [hbefore]; rfl)))
        · intro hbefore
          exact hj (hchange.only j (Or.inl (by rw [hbefore]; rfl)))
    · have hbefore := (hchange.lock_cases hlock).resolve_left hqp
      rw [hpc q hqp] at hlocking htesting
      rw [hchange.entry_of_owns hqp hbefore]
      exact h.valid q j hbefore hlocking htesting
  case typed =>
    intro q j hplace
    rw [hentry]
    by_cases hqp : q = p
    · subst hqp
      rw [goto_pc_self] at hplace
      have hj : j = i := hchange.only j (Or.inr (by rcases hplace with rfl | rfl <;> rfl))
      subst hj
      rw [setEntry_self]
      exact hchange.typed hplace
    · rw [hpc q hqp] at hplace
      have hlock := h.owner q j (by rcases hplace with hplace | hplace <;> rw [hplace] <;> rfl)
      rw [hchange.entry_of_owns hqp hlock]
      exact h.typed q j hplace

/-- Nobody gets hold of an inode by it. -/
theorem Linked.change (h : Linked s) (hgrasp : ∀ j, pc.grasp = some j → (s.pc p).grasp = some j)
    (hfresh : ∀ k, pc.fresh = some k → (s.pc p).fresh = some k)
    (hfrees : pc.frees = some i →
      e.ref = 1 ∧ e.nlink = 0 ∧ (s.disk (s.entry i).key).nlink = 0)
    (howner : ∀ q j, (s.pc q).owns = some j → (s.entry j).lock = some q) :
    Linked ((s.setEntry i e).goto p pc) := by
  have hentry : ∀ j, ((s.setEntry i e).goto p pc).entry j = (s.setEntry i e).entry j :=
    fun j => rfl
  have hdisk : ((s.setEntry i e).goto p pc).disk = s.disk := rfl
  have hfreshq : ∀ q k, (((s.setEntry i e).goto p pc).pc q).fresh = some k →
      (s.pc q).fresh = some k := by
    intro q k hk
    by_cases hqp : q = p
    · subst hqp
      rw [goto_pc_self] at hk
      exact hfresh k hk
    · rwa [goto_pc_of_ne hqp] at hk
  constructor
  case born =>
    intro j hj
    have hbefore : s.Refers Pc.grasp j := by
      rcases hj with hfiles | ⟨q, hvars | hq⟩
      · exact Or.inl hfiles
      · exact Or.inr ⟨q, Or.inl hvars⟩
      · refine Or.inr ⟨q, Or.inr ?_⟩
        by_cases hqp : q = p
        · subst hqp
          rw [goto_pc_self] at hq
          exact hgrasp j hq
        · rwa [goto_pc_of_ne hqp] at hq
    rw [hentry, hchange.key_eq, hdisk]
    exact ⟨(h.born j hbefore).1, fun q hq => (h.born j hbefore).2 q (hfreshq q _ hq)⟩
  case fresh =>
    intro q k hk
    exact h.fresh q k (hfreshq q k hk)
  case single =>
    intro q q' k hq hq'
    exact h.single q q' k (hfreshq q k hq) (hfreshq q' k hq')
  case frees =>
    intro q j hj
    rw [hentry, hdisk]
    by_cases hqp : q = p
    · subst hqp
      rw [goto_pc_self] at hj
      obtain rfl := hchange.only j (Or.inr (Pc.owns_of_frees hj))
      rw [setEntry_self, hchange.key]
      exact hfrees hj
    · rw [goto_pc_of_ne hqp] at hj
      have hlock := howner q j (Pc.owns_of_frees hj)
      rw [hchange.entry_of_owns hqp hlock]
      exact h.frees q j hj

end Change

/-! ## An inode is written -/

/-- Where `iupdate` is called, and where the process is afterwards. -/
inductive Writes (i : Ptr) : Pc → Pc → Prop
  | update : Writes i (.updating i) .idle
  | truncate : Writes i (.truncated i) (.clearing i)
  | free : Writes i (.cleared i) (.freed i)

omit [DecidableEq P] in
theorem setDinode_disk_self {d : Dinode} : (s.setDinode k d).disk k = d := Function.update_self ..

omit [DecidableEq P] in
theorem setDinode_disk_of_ne {d : Dinode} {k' : ℕ × ℕ} (hne : k' ≠ k) :
    (s.setDinode k d).disk k' = s.disk k' := Function.update_of_ne hne ..

omit [DecidableEq P] in
theorem owns_of_writes {pc' : Pc} (hplace : s.pc p = pc') (hwrites : Writes i pc' pc) :
    (s.pc p).owns = some i := by
  rw [hplace]
  cases hwrites <;> rfl

section Write

variable [Fintype P] {pc' : Pc} (hplace : s.pc p = pc') (hwrites : Writes i pc' pc)
include hplace hwrites

theorem Inv.write (h : Inv s) : Inv (s.iupdate p i pc) := by
  have howns := owns_of_writes hplace hwrites
  have hpos := h.pos_of_owns howns
  have hentry : (s.iupdate p i pc).entry = s.entry := rfl
  have hself : (s.iupdate p i pc).pc p = pc := goto_pc_self
  have hpc : ∀ q, q ≠ p → (s.iupdate p i pc).pc q = s.pc q := fun q hq => goto_pc_of_ne hq
  constructor
  case counted =>
    refine h.counted.congr (fun j => rfl) fun o => ?_
    cases o with
    | none => rfl
    | some q =>
        have hvars : (s.iupdate p i pc).vars q = s.vars q := rfl
        rw [Icache.holds, Icache.holds, hvars]
        by_cases hq : q = p
        · subst hq
          rw [hself, hplace]
          cases hwrites <;> rfl
        · rw [hpc q hq]
  case unique => exact h.unique
  case owner =>
    intro q j hj
    by_cases hq : q = p
    · subst hq
      rw [hself] at hj
      cases hwrites <;> cases hj <;> exact h.owner q i howns
    · rw [hpc q hq] at hj
      exact h.owner q j hj
  case kept =>
    intro j hlock
    refine refers_congr (h.kept j hlock) rfl rfl fun q hq => ?_
    by_cases hqp : q = p
    · subst hqp
      rw [hplace] at hq
      rw [hself]
      cases hwrites <;> exact hq
    · rwa [hpc q hqp]
  case synced =>
    intro j hj hvalid hdirty
    rw [hentry] at hj hvalid ⊢
    by_cases hji : j = i
    · subst hji
      refine ⟨setDinode_disk_self.symm, ?_⟩
      have hp := hdirty p
      rw [hself] at hp
      cases hwrites with
      | update => exact h.typed p j (Or.inl hplace)
      | truncate => exact h.typed p j (Or.inr hplace)
      | free => exact absurd rfl hp
    · have hkey : (s.entry j).key ≠ (s.entry i).key := fun hkey =>
        hji (h.unique j i hj hpos hkey)
      have hsame : (s.iupdate p i pc).disk (s.entry j).key = s.disk (s.entry j).key :=
        setDinode_disk_of_ne hkey
      rw [hsame]
      refine h.synced j hj hvalid fun q hq => ?_
      by_cases hqp : q = p
      · subst hqp
        have hboth := (Pc.owns_of_dirty hq).symm.trans howns
        exact hji (Option.some.inj hboth)
      · have hno := hdirty q
        rw [hpc q hqp] at hno
        exact hno hq
  case valid =>
    intro q j hlock hlocking htesting
    by_cases hqp : q = p
    · subst hqp
      refine h.valid q j hlock ?_ ?_ <;> rw [hplace] <;> cases hwrites <;> exact Pc.noConfusion
    · rw [hpc q hqp] at hlocking htesting
      exact h.valid q j hlock hlocking htesting
  case typed =>
    intro q j hq
    by_cases hqp : q = p
    · subst hqp
      rw [hself] at hq
      cases hwrites <;> rcases hq with hq | hq <;> cases hq
    · rw [hpc q hqp] at hq
      exact h.typed q j hq

/-- When an inode is free, nobody has a pointer to it that is not being dropped. -/
theorem Linked.write (h : Linked s) (hinv : Inv s) : Linked (s.iupdate p i pc) := by
  have howns := owns_of_writes hplace hwrites
  have hpos := hinv.pos_of_owns howns
  have hgrasp : s.Refers Pc.grasp i := hinv.grasp_of_owns howns (by
    rw [hplace]
    cases hwrites <;> exact Pc.noConfusion)
  have hself : (s.iupdate p i pc).pc p = pc := goto_pc_self
  have hpc : ∀ q, q ≠ p → (s.iupdate p i pc).pc q = s.pc q := fun q hq => goto_pc_of_ne hq
  have hfreshq : ∀ q k, ((s.iupdate p i pc).pc q).fresh = some k → (s.pc q).fresh = some k := by
    intro q k hk
    by_cases hqp : q = p
    · subst hqp
      rw [hself] at hk
      cases hwrites <;> cases hk
    · rwa [hpc q hqp] at hk
  constructor
  case born =>
    intro j hj
    have hbefore : s.Refers Pc.grasp j := by
      rcases hj with hfiles | ⟨q, hvars | hq⟩
      · exact Or.inl hfiles
      · exact Or.inr ⟨q, Or.inl hvars⟩
      · refine Or.inr ⟨q, Or.inr ?_⟩
        by_cases hqp : q = p
        · subst hqp
          rw [hself] at hq
          rw [hplace]
          cases hwrites with
          | update => cases hq
          | truncate => exact hq
          | free => cases hq
        · rwa [hpc q hqp] at hq
    refine ⟨?_, fun q hq => (h.born j hbefore).2 q (hfreshq q _ hq)⟩
    by_cases hji : j = i
    · subst hji
      have hdisk : (s.iupdate p j pc).disk (s.entry j).key = (s.entry j).toDinode :=
        setDinode_disk_self
      show ((s.iupdate p j pc).disk (s.entry j).key).type ≠ 0
      rw [hdisk]
      cases hwrites with
      | update => exact hinv.typed p j (Or.inl hplace)
      | truncate => exact hinv.typed p j (Or.inr hplace)
      | free =>
          have hone := (h.frees p j (by rw [hplace]; rfl)).1
          obtain ⟨hfiles, hvars, hhands⟩ := hinv.sole (by rw [hplace]; rfl) hone
          rcases hj with hj | ⟨q, hj | hj⟩
          · exact absurd hj hfiles
          · exact absurd hj (hvars q)
          · by_cases hqp : q = p
            · subst hqp
              rw [hself] at hj
              cases hj
            · rw [hpc q hqp] at hj
              exact absurd (Pc.hand_of_grip (Pc.grip_of_grasp hj)) (hhands q hqp)
    · have hkey : (s.entry j).key ≠ (s.entry i).key := fun hkey =>
        hji (hinv.unique j i (hinv.pos_of_grasp hbefore) hpos hkey)
      have hsame : (s.iupdate p i pc).disk (s.entry j).key = s.disk (s.entry j).key :=
        setDinode_disk_of_ne hkey
      show ((s.iupdate p i pc).disk (s.entry j).key).type ≠ 0
      rw [hsame]
      exact (h.born j hbefore).1
  case fresh =>
    intro q k hk
    have hbefore := hfreshq q k hk
    have hkey : k ≠ (s.entry i).key := by
      rintro rfl
      exact (h.born i hgrasp).2 q hbefore
    have hsame : (s.iupdate p i pc).disk k = s.disk k := setDinode_disk_of_ne hkey
    rw [hsame]
    exact h.fresh q k hbefore
  case single =>
    intro q q' k hq hq'
    exact h.single q q' k (hfreshq q k hq) (hfreshq q' k hq')
  case frees =>
    intro q j hj
    by_cases hqp : q = p
    · subst hqp
      rw [hself] at hj
      cases hwrites with
      | update => cases hj
      | truncate =>
          cases hj
          have hbefore := h.frees q i (by rw [hplace]; rfl)
          have hdisk : (s.iupdate q i (.clearing i)).disk (s.entry i).key = (s.entry i).toDinode :=
            setDinode_disk_self
          refine ⟨hbefore.1, hbefore.2.1, ?_⟩
          show ((s.iupdate q i (.clearing i)).disk (s.entry i).key).nlink = 0
          rw [hdisk]
          exact hbefore.2.1
      | free => cases hj
    · rw [hpc q hqp] at hj
      have hbefore := h.frees q j hj
      have hji : j ≠ i := by
        rintro rfl
        exact hqp (hinv.owns_unique howns (Pc.owns_of_frees hj))
      have hkey : (s.entry j).key ≠ (s.entry i).key := fun hkey =>
        hji (hinv.unique j i (hinv.pos_of_owns (Pc.owns_of_frees hj)) hpos hkey)
      have hsame : (s.iupdate p i pc).disk (s.entry j).key = s.disk (s.entry j).key :=
        setDinode_disk_of_ne hkey
      refine ⟨hbefore.1, hbefore.2.1, ?_⟩
      show ((s.iupdate p i pc).disk (s.entry j).key).nlink = 0
      rw [hsame]
      exact hbefore.2.2

end Write

end Xv6.Inodes
