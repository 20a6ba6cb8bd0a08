import Xv6.Volume.Books

/-!
# Kinds of steps

Four kinds of steps keep the invariant and leave alone what others rely on.  `Own` changes blocks,
and inodes that the process has locked.  `Relock` takes the lock of an inode or gives it back.
`Table` takes references, gives them up or hands them on, and `Fills` does so for an inode that is
not in the cache.
-/

namespace Xv6

open Files Interleaving References Marking
open Inodes (Ptr)
open Ftable (FileId Fd)

namespace Volume

variable {P : Type} {s t u : Volume P × Ghost P} {p q : P} {i : ℕ} {j k : Ptr} {f : FileId}
variable {sb : Superblock} {K : ℕ → Prop}

/-! ## The inodes that one has locked -/

variable (sb) in
/-- Inodes that are not in `K` are left alone, and those in `K` are locked by `p`. -/
structure Own (p : P) (K : ℕ → Prop) (s t : Volume P × Ghost P) : Prop where
  file : t.1.file = s.1.file
  cwd : t.1.cwd = s.1.cwd
  ofile : t.1.ofile = s.1.ofile
  used : t.1.used = s.1.used
  vars : t.2.vars = s.2.vars
  fvars : t.2.fvars = s.2.fvars
  entry : ∀ j, ∃ d valid, t.1.entry j = { s.1.entry j with toDinode := d, valid := valid }
  contents : ∀ j, ((s.1.entry j).lock = some p → ¬ K (s.1.entry j).inum) →
    t.1.entry j = s.1.entry j
  quiet : ∀ i, ¬ K i → Quiet i s t
  hand : ∀ q, q ≠ p → HandKept q s t
  mine : ∀ i, K i → LockedBy p i s
  marked : Marked sb.dataStart sb.size t.2.holder t.1.disk.bitmap
  reserved : ∀ b < sb.dataStart, t.1.disk.bitmap b = true

namespace Own

theorem keeps (h : Own sb p K s t) (j : Ptr) : (t.1.entry j).dev = (s.1.entry j).dev ∧
    (t.1.entry j).inum = (s.1.entry j).inum ∧ (t.1.entry j).ref = (s.1.entry j).ref ∧
    (t.1.entry j).lock = (s.1.entry j).lock := by
  obtain ⟨d, valid, hentry⟩ := h.entry j
  rw [hentry]
  exact ⟨rfl, rfl, rfl, rfl⟩

theorem uses (h : Own sb p K s t) : Uses q j t ↔ Uses q j s := by
  rw [Uses, Uses, h.vars, h.fvars, h.file]

theorem same (h : Own sb p K s t) (q : P) : Same q s t :=
  ⟨congrFun h.used q, congrFun h.cwd q, congrFun h.ofile q, congrFun h.vars q,
    congrFun h.fvars q⟩

theorem holds_eq (h : Own sb p K s t) : holds t = holds s := by
  rw [holds, holds, h.vars, h.file]

theorem lock_iff (h : Own sb p K s t) :
    (t.1.entry j).lock = some q ↔ (s.1.entry j).lock = some q := by
  rw [(h.keeps j).2.2.2]

theorem unlocked (h : Own sb p K s t) (hi : Unlocked i t.1) : Unlocked i s.1 := fun j hlock => by
  have hkeeps := h.keeps j
  rw [← hkeeps.2.1]
  exact hi j (by rwa [hkeeps.2.2.2])

/-- An entry that one has not locked, or whose inode is not changed, is steady afterwards. -/
theorem steady (h : Own sb p K s t) (hnot : ¬ K (s.1.entry j).inum) (hsteady : Steady s j) :
    Steady t j := by
  have hentry := h.contents j fun _ => hnot
  exact hsteady.congr ⟨by rw [hentry], by rw [hentry]⟩ (by rw [hentry]) (h.quiet _ hnot)

theorem sound (h : Own sb p K s t) (hnot : ¬ K (s.1.entry j).inum) (hsound : Sound s j) :
    Sound t j := by
  have hentry := h.contents j fun _ => hnot
  exact hsound.congr ⟨by rw [hentry], by rw [hentry]⟩ (by rw [hentry]) (h.quiet _ hnot)

variable [Fintype P]

theorem inv (h : Own sb p K s t) (hs : Inv sb s) : Inv sb t where
  marked := h.marked
  reserved := h.reserved
  counted := by
    refine hs.counted.congr (fun j => (h.keeps j).2.2.1) fun e => ?_
    rw [h.holds_eq]
  files := by
    rw [h.file, h.fvars]
    exact hs.files
  unique j k := by
    rw [(h.keeps j).2.2.1, (h.keeps k).2.2.1, (h.keeps j).2.1, (h.keeps k).2.1]
    exact hs.unique j k
  dev j := by
    rw [(h.keeps j).2.2.1, (h.keeps j).1]
    exact hs.dev j
  locked j q := by
    rw [(h.keeps j).2.2.2, h.uses]
    exact hs.locked j q
  steady j hlock hpos := by
    rw [(h.keeps j).2.2.2] at hlock
    rw [(h.keeps j).2.2.1] at hpos
    refine h.steady (fun hK => ?_) (hs.steady j hlock hpos)
    have hmine := (hs.lockedBy_iff hpos).mp (h.mine _ hK)
    simp [hlock] at hmine
  settled i hi := by
    have hunlocked := h.unlocked hi
    exact (hs.settled i hunlocked).quiet (h.quiet i fun hK =>
      Inv.not_lockedBy_of_unlocked hunlocked (h.mine i hK))
  closed := by
    rw [h.file]
    exact hs.closed
  fresh := by
    rw [h.file, h.fvars]
    exact hs.fresh
  unused := by
    rw [h.used, h.vars, h.fvars]
    exact hs.unused

omit [Fintype P] in
theorem idle (h : Own sb p K s t) (hne : q ≠ p) (hidle : Idle q s) : Idle q t where
  hand := (h.hand q hne).hand.trans hidle.hand
  lock j := by
    rw [(h.keeps j).2.2.2]
    exact hidle.lock j
  ready := by
    rw [h.used, h.cwd, h.vars, h.fvars, h.ofile, h.file]
    exact hidle.ready

omit [Fintype P] in
theorem frame (h : Own sb p K s t) : Frame p s t where
  same q _ _ := h.same q
  born _ hne _ hidle := h.idle hne hidle
  hand := h.hand
  lock _ _ _ := h.lock_iff
  contents j hlock _ := by
    have hentry := h.contents j fun hp => absurd hp hlock
    exact ⟨by rw [hentry], by rw [hentry]⟩
  key j _ := ⟨(h.keeps j).1, (h.keeps j).2.1⟩
  file _ _ f _ := by
    rw [SameFile, h.file]
    exact ⟨rfl, rfl, rfl⟩
  quiet i hi := h.quiet i fun hK => hi (h.mine i hK)

end Own

/-! ## Locks -/

/-- The same disk with other locks, references or files. -/
theorem Quiet.of_disk (hdisk : t.1.disk = s.1.disk) (hplace : t.2.place = s.2.place) (i : ℕ) :
    Quiet i s t := by
  refine ⟨Or.inl (by rw [hdisk]), fun slot => by rw [hplace], fun slot _ => by rw [hdisk]⟩

theorem HandKept.of_disk (hdisk : t.1.disk = s.1.disk) (hhand : t.2.hand = s.2.hand) (q : P) :
    HandKept q s t := ⟨by rw [hhand], fun _ => by rw [hdisk]⟩

/-- The lock of entry `j` becomes `lock`. -/
def relock (s : Volume P × Ghost P) (j : Ptr) (lock : Option P) : Volume P × Ghost P :=
  (s.1.setEntry j fun e => { e with lock := lock }, s.2)

/-- One takes the lock of an inode that one uses, or gives it back when the inode is in order. -/
inductive Relock (p : P) (s : Volume P × Ghost P) (j : Ptr) : Option P → Prop where
  | acquire (hfree : (s.1.entry j).lock = none) (huses : Uses p j s) : Relock p s j (some p)
  | release (hlock : (s.1.entry j).lock = some p) (hsteady : Steady s j) : Relock p s j none

section Relock

variable {lock : Option P}

@[simp] theorem setEntry_self (v : Volume P) (j : Ptr) (h : Inodes.Entry P → Inodes.Entry P) :
    (v.setEntry j h).entry j = h (v.entry j) := Function.update_self ..

theorem setEntry_of_ne {v : Volume P} {h : Inodes.Entry P → Inodes.Entry P} (hne : k ≠ j) :
    (v.setEntry j h).entry k = v.entry k := Function.update_of_ne hne ..

theorem relock_entry (s : Volume P × Ghost P) (j k : Ptr) (lock : Option P) :
    ((relock s j lock).1.entry k).toDinode = (s.1.entry k).toDinode ∧
    ((relock s j lock).1.entry k).valid = (s.1.entry k).valid ∧
    ((relock s j lock).1.entry k).dev = (s.1.entry k).dev ∧
    ((relock s j lock).1.entry k).inum = (s.1.entry k).inum ∧
    ((relock s j lock).1.entry k).ref = (s.1.entry k).ref := by
  by_cases hk : k = j
  · subst hk
    rw [relock, setEntry_self]
    exact ⟨rfl, rfl, rfl, rfl, rfl⟩
  · rw [relock, setEntry_of_ne hk]
    exact ⟨rfl, rfl, rfl, rfl, rfl⟩

theorem relock_self (s : Volume P × Ghost P) (j : Ptr) (lock : Option P) :
    ((relock s j lock).1.entry j).lock = lock := by
  rw [relock, setEntry_self]

theorem relock_of_ne (s : Volume P × Ghost P) {j k : Ptr} (lock : Option P) (hne : k ≠ j) :
    (relock s j lock).1.entry k = s.1.entry k := by
  have hentry := setEntry_of_ne (v := s.1) (h := fun e => { e with lock := lock }) hne
  exact hentry

theorem Quiet.relock (s : Volume P × Ghost P) (j : Ptr) (lock : Option P) (i : ℕ) :
    Quiet i s (Volume.relock s j lock) :=
  Quiet.of_disk (s := s) (t := Volume.relock s j lock) rfl rfl i

theorem Steady.relock (h : Steady s k) (j : Ptr) (lock : Option P) :
    Steady (Volume.relock s j lock) k :=
  have hentry := relock_entry s j k lock
  h.congr ⟨hentry.1, hentry.2.1⟩ hentry.2.2.2.1 (Quiet.relock s j lock _)

theorem Sound.relock (h : Sound s k) (j : Ptr) (lock : Option P) :
    Sound (Volume.relock s j lock) k :=
  ⟨h.steady.relock j lock, (relock_entry s j k lock).2.1.trans h.valid⟩

variable [Fintype P]

/-- What one finds under a lock that one has taken. -/
theorem Relock.steady (h : Relock p s j lock) (hs : Inv sb s) : Steady s j := by
  cases h with
  | acquire hfree huses => exact hs.steady j hfree (hs.ref_pos huses)
  | release _ hsteady => exact hsteady

theorem Relock.inv (h : Relock p s j lock) (hs : Inv sb s) : Inv sb (relock s j lock) where
  marked := hs.marked
  reserved := hs.reserved
  counted := hs.counted.congr (fun k => (relock_entry s j k lock).2.2.2.2) fun _ => rfl
  files := hs.files
  unique k k' := by
    have hk := (relock_entry s j k lock).2.2.2
    have hk' := (relock_entry s j k' lock).2.2.2
    rw [hk.1, hk.2, hk'.1, hk'.2]
    exact hs.unique k k'
  dev k := by
    have hk := (relock_entry s j k lock).2.2
    rw [hk.1, hk.2.2]
    exact hs.dev k
  locked k q hlock := by
    by_cases hk : k = j
    · subst hk
      rw [relock_self] at hlock
      cases h with
      | acquire _ huses =>
          cases hlock
          exact huses
      | release => cases hlock
    · rw [relock_of_ne s lock hk] at hlock
      exact hs.locked k q hlock
  steady k hlock hpos := by
    rw [(relock_entry s j k lock).2.2.2.2] at hpos
    by_cases hk : k = j
    · subst hk
      exact (h.steady hs).relock k lock
    · rw [relock_of_ne s lock hk] at hlock
      exact (hs.steady k hlock hpos).relock j lock
  settled i hi := by
    by_cases hij : i = (s.1.entry j).inum
    · subst hij
      exact (h.steady hs).settled.quiet (Quiet.relock s j lock _)
    · refine (hs.settled i fun k hlock hinum => ?_).quiet (Quiet.relock s j lock i)
      have hk : k ≠ j := by
        rintro rfl
        exact hij hinum.symm
      refine hi k ?_ ?_
      · rwa [relock_of_ne s lock hk]
      · rwa [relock_of_ne s lock hk]
  closed := hs.closed
  fresh := hs.fresh
  unused := hs.unused

omit [Fintype P] in
theorem Relock.lock_iff (h : Relock p s j lock) (hne : q ≠ p) :
    ((relock s j lock).1.entry k).lock = some q ↔ (s.1.entry k).lock = some q := by
  by_cases hk : k = j
  · subst hk
    rw [relock_self]
    cases h with
    | acquire hfree _ => simp [hfree, hne.symm]
    | release hlock _ => simp [hlock, hne.symm]
  · rw [relock_of_ne s lock hk]

omit [Fintype P] in
theorem Relock.frame (h : Relock p s j lock) : Frame p s (relock s j lock) where
  same _ _ _ := ⟨rfl, rfl, rfl, rfl, rfl⟩
  born _ hne _ hidle := ⟨hidle.hand, fun k hlock => hidle.lock k ((h.lock_iff hne).mp hlock),
    hidle.ready⟩
  hand q _ := HandKept.of_disk (s := s) (t := relock s j lock) rfl rfl q
  lock _ hne _ := h.lock_iff hne
  contents k _ _ :=
    have hentry := relock_entry s j k lock
    ⟨hentry.1, hentry.2.1⟩
  key k _ :=
    have hentry := relock_entry s j k lock
    ⟨hentry.2.2.1, hentry.2.2.2.1⟩
  file _ _ f _ := SameFile.refl f s
  quiet i _ := Quiet.relock s j lock i

end Relock

/-! ## References -/

/-- References are counted, and nothing else changes in the cache and on the disk. -/
structure Table [Fintype P] (p : P) (s t : Volume P × Ghost P) : Prop where
  disk : t.1.disk = s.1.disk
  place : t.2.place = s.2.place
  hand : t.2.hand = s.2.hand
  entry : ∀ j, ∃ r, t.1.entry j = { s.1.entry j with ref := r }
  pos : ∀ j, 0 < (t.1.entry j).ref → 0 < (s.1.entry j).ref
  same : ∀ q, q ≠ p → s.1.used q = true → Same q s t
  born : ∀ q, q ≠ p → s.1.used q = false → Idle q s → Idle q t
  uses : ∀ q, q ≠ p → ∀ j, Uses q j s → Uses q j t
  file : ∀ q, q ≠ p → ∀ f ∈ s.2.fvars q, SameFile f s t
  mine : ∀ j, (s.1.entry j).lock = some p → Uses p j t
  counted : Counted (fun j => (t.1.entry j).ref) (holds t)
  files : Counted (fun f => (t.1.file f).ref) t.2.fvars
  closed : ∀ f, (t.1.file f).ref = 0 → (t.1.file f).ip = none
  fresh : ∀ f p q, (t.1.file f).ip = none → f ∈ t.2.fvars p → f ∈ t.2.fvars q → p = q
  unused : ∀ p, t.1.used p = false → t.2.vars p = 0 ∧ t.2.fvars p = 0

namespace Table

variable [Fintype P]

theorem keeps (h : Table p s t) (j : Ptr) : SameContents j s t ∧ SameKey j s t ∧
    (t.1.entry j).lock = (s.1.entry j).lock := by
  obtain ⟨r, hentry⟩ := h.entry j
  rw [SameContents, SameKey, hentry]
  exact ⟨⟨rfl, rfl⟩, ⟨rfl, rfl⟩, rfl⟩

theorem quiet (h : Table p s t) (i : ℕ) : Quiet i s t := Quiet.of_disk h.disk h.place i

theorem steady (h : Table p s t) (hj : Steady s j) : Steady t j :=
  hj.congr (h.keeps j).1 (h.keeps j).2.1.2 (h.quiet _)

theorem sound (h : Table p s t) (hj : Sound s j) : Sound t j :=
  hj.congr (h.keeps j).1 (h.keeps j).2.1.2 (h.quiet _)

theorem inv (h : Table p s t) (hs : Inv sb s) : Inv sb t where
  marked := by
    have hholder : t.2.holder = s.2.holder := by
      rw [Ghost.holder, Ghost.holder, h.place, h.hand]
    rw [hholder, h.disk]
    exact hs.marked
  reserved := by
    rw [h.disk]
    exact hs.reserved
  counted := h.counted
  files := h.files
  unique j k hj hk := by
    rw [(h.keeps j).2.1.2, (h.keeps k).2.1.2]
    exact hs.unique j k (h.pos j hj) (h.pos k hk)
  dev j hj := by
    rw [(h.keeps j).2.1.1]
    exact hs.dev j (h.pos j hj)
  locked j q hlock := by
    rw [(h.keeps j).2.2] at hlock
    by_cases hq : q = p
    · subst hq
      exact h.mine j hlock
    · exact h.uses q hq j (hs.locked j q hlock)
  steady j hlock hpos := by
    rw [(h.keeps j).2.2] at hlock
    exact h.steady (hs.steady j hlock (h.pos j hpos))
  settled i hi := by
    refine (hs.settled i fun j hlock => ?_).quiet (h.quiet i)
    rw [← (h.keeps j).2.1.2]
    exact hi j (by rwa [(h.keeps j).2.2])
  closed := h.closed
  fresh := h.fresh
  unused := h.unused

theorem frame (h : Table p s t) : Frame p s t where
  same := h.same
  born := h.born
  hand q _ := HandKept.of_disk h.disk h.hand q
  lock q _ j := by rw [(h.keeps j).2.2]
  contents j _ _ := (h.keeps j).1
  key j _ := (h.keeps j).2.1
  file := h.file
  quiet i _ := h.quiet i

end Table

end Volume

end Xv6
