import Xv6.Volume.Blocks

/-!
# `ilock` and `iunlock`

After `ilock` the inode is locked and its entry of the cache has been read.  A process that has
locked an inode may give it back.
-/

namespace Xv6

open Files Interleaving
open Inodes (Ptr)

namespace Volume

variable {P : Type} {s t : Volume P × Ghost P} {p : P} {i : ℕ} {j : Ptr}
variable {sb : Superblock} {l : Local} {d d₀ : Dinode} {f : Files.Slot → ℕ} {α : Type}
variable {c : Routine P α} {Q : α → Volume P × Ghost P → Prop}

theorem On.has_of_open (h : On p l j (Open p j i d d 0 f) s) (hf : Filled f d.size) : Has p l s :=
  (h.imp fun hopen => hopen.sound hf).has

theorem On.has_of_valid (h : On p l j (Orderly p j) s) (hvalid : (s.1.entry j).valid = true) :
    Has p l s := (h.imp fun hj => ⟨hj.1, hj.2, hvalid⟩).has

theorem Has.orderly (h : Has p l s) (hj : j ∈ l.locks) : On p l j (Orderly p j) s :=
  (h.on hj).imp fun hsound => ⟨hsound.1, hsound.2.steady⟩

variable [Fintype P]

/-- A program may be told what is in an inode that is locked. -/
theorem spec_of_open (hj : j ∈ l.locks)
    (h : ∀ i d f, Filled f d.size → Spec P sb p (On p l j (Open p j i d d 0 f)) c Q) :
    Spec P sb p (Has p l) c Q := by
  refine Logic.Meets.of_imp (A := fun s => ∃ i d f, Filled f d.size ∧
    On p l j (Open p j i d d 0 f) s) ?_ fun s _ hs => ?_
  · exact Logic.meets_exists fun i => Logic.meets_exists fun d => Logic.meets_exists fun f =>
      Logic.meets_and fun hf => h i d f hf
  · obtain ⟨i, d, f, hf, hopen⟩ := (hs.sound j hj).open hs.hand
    exact ⟨i, d, f, hf, (hs.on hj).imp fun _ => hopen⟩

/-- What is locked is in use. -/
theorem Has.uses (h : Has p l s) (hs : Inv sb s) (hj : j ∈ l.locks) : l.Uses j :=
  h.core.uses.mp (hs.locked j p ((h.core.lock j).mpr hj))

theorem spec_of_uses (hj : j ∈ l.locks) (h : l.Uses j → Spec P sb p (Has p l) c Q) :
    Spec P sb p (Has p l) c Q :=
  Logic.Meets.of_imp (Logic.meets_and h) fun _ hs hhas => ⟨hhas.uses hs hj, hhas⟩

/-! ## `iunlock` -/

variable [DecidableEq P]

theorem spec_iunlock (hj : j ∈ l.locks) :
    Spec P sb p (Has p l) (iunlock p j) fun _ => Has p (l.unlock j) := by
  refine Logic.Meets.bind (Q := fun e s => (e.lock = some p ∧ 0 < e.ref) ∧ Has p l s)
    ((spec_getinode stable_has).mono fun e s hs ⟨h, he⟩ => ?_) fun e => Logic.meets_and fun he => ?_
  · have hlock := (h.core.lock j).mpr hj
    rw [he]
    exact ⟨⟨hlock, hs.locked_pos hlock⟩, h⟩
  · rw [if_neg (by simp [he.1]; omega)]
    exact spec_releasesleep.of_imp fun s _ h => h.orderly hj

/-! ## `ilock` -/

/-- The entry has just been read, and the inode may have been free. -/
structure Fetched (p : P) (j : Ptr) (s : Volume P × Ghost P) : Prop where
  hand : s.2.hand p = 0
  settled : Settled s (s.1.entry j).inum
  valid : (s.1.entry j).valid = true
  copy : (s.1.entry j).type ≠ 0 →
    (s.1.entry j).toDinode = s.1.disk.dinode (s.1.entry j).inum

omit [DecidableEq P] in
theorem keptBy_fetched : KeptBy sb p j (Fetched p j) := by
  intro s t hs hlock hkept h
  have hinum := (hkept.key j (hs.locked j p hlock)).2
  have hquiet := hkept.quiet _ ⟨j, hlock, rfl⟩
  obtain ⟨hcontents, hvalid⟩ := hkept.contents j hlock
  refine ⟨hkept.hand.hand.trans h.hand, ?_, hvalid.trans h.valid, fun htype => ?_⟩
  · rw [hinum]
    exact h.settled.quiet hquiet
  · rw [hcontents] at htype ⊢
    rw [hinum]
    have hcopy := h.copy htype
    rcases hquiet.dinode with hsame | ⟨hfree, -⟩
    · rw [hsame, hcopy]
    · rw [hcopy] at htype
      exact absurd hfree htype

omit [DecidableEq P] in
theorem spec_readInode :
    Spec P sb p (On p l j (Orderly p j)) (readInode j) fun _ => On p l j (Fetched p j) := by
  refine Logic.meets_atomic (stable_on keptBy_orderly) fun s hs h => ?_
  obtain ⟨hhand, hsteady⟩ := h.own
  have hown := Own.of_contents (d := s.1.disk.dinode (s.1.entry j).inum) (v := true)
    h.locked rfl (fun _ _ _ => rfl) (fun _ _ => rfl) hs.marked hs.reserved
  refine does_own (Z := fun _ => Fetched p j) h hs rfl rfl hown ⟨hhand, ?_, ?_, fun _ => ?_⟩
  all_goals dsimp only
  all_goals rw [setEntry_self]
  · exact hsteady.settled.quiet ⟨Or.inl rfl, fun _ => rfl, fun _ _ => rfl⟩
  · rfl

omit [DecidableEq P] in
theorem spec_ilock (huses : l.Uses j) :
    Spec P sb p (Has p l) (ilock p j) fun _ s => j ∉ l.locks ∧ Has p (l.lock j) s := by
  refine Logic.Meets.bind (Q := fun e s => 0 < e.ref ∧ Has p l s)
    ((spec_getinode stable_has).mono fun e s hs ⟨h, he⟩ => ?_) fun e => Logic.meets_and fun he => ?_
  · rw [he]
    exact ⟨hs.ref_pos (h.core.uses.mpr huses), h⟩
  rw [if_neg (by omega)]
  refine (spec_acquiresleep huses).bind fun _ => Logic.meets_and fun hj => ?_
  refine (spec_getinode (stable_on keptBy_orderly)).bind fun e => ?_
  have hdone : ∀ A : Volume P × Ghost P → Prop, (∀ s, A s → Has p (l.lock j) s) →
      Spec P sb p A (pure ()) fun _ s => j ∉ l.locks ∧ Has p (l.lock j) s :=
    fun A hA => Logic.Meets.of_imp Logic.meets_pure fun s _ h => ⟨hj, hA s h⟩
  cases hvalid : e.valid with
  | true => exact hdone _ fun s ⟨h, he⟩ => h.has_of_valid (by rw [← he, hvalid])
  | false =>
      refine (spec_readInode.of_imp fun s _ h => h.1).bind fun _ =>
        (spec_getinode (stable_on keptBy_fetched)).bind fun e => ?_
      by_cases htype : e.type = 0
      · rw [if_pos htype]
        exact Logic.meets_fail (by simp [logic, Expected])
      · rw [if_neg htype]
        refine hdone _ fun s ⟨h, he⟩ => (h.imp fun hj => ?_).has
        rw [he] at htype
        exact ⟨hj.hand, ⟨hj.settled, fun _ => ⟨hj.copy htype, htype⟩⟩, hj.valid⟩

end Volume

end Xv6
