import Xv6.Volume.Rules

/-!
# What a process knows

`Has p l`: process `p` has the references, the locks and the descriptors that `l` says, and the
inodes that it has locked are in order.  `On p l j X` is the same except for one locked inode `j`,
of which `X` is known.  Others do not make any of this false (`stable_has`, `stable_on`).

The rules for `ilock`, `iunlock`, `iget` and `idup` are in these terms.
-/

namespace Xv6

open Files Interleaving References Marking
open Inodes (Ptr)
open Ftable (FileId Fd)

namespace Volume

/-- `ips` are the inodes of the files in `fvars`. -/
structure Local where
  vars : Multiset Ptr
  fvars : Multiset FileId
  ips : FileId → Option Ptr
  locks : Set Ptr
  cwd : Option Ptr
  ofile : Fd → Option FileId

namespace Local

def lock (l : Local) (j : Ptr) : Local := { l with locks := insert j l.locks }

def unlock (l : Local) (j : Ptr) : Local := { l with locks := l.locks \ {j} }

def keep (l : Local) (j : Ptr) : Local := { l with vars := j ::ₘ l.vars }

/-- There is a reference to the entry, or one to a file that has one. -/
def Uses (l : Local) (j : Ptr) : Prop := j ∈ l.vars ∨ ∃ f ∈ l.fvars, l.ips f = some j

variable {l : Local} {j k : Ptr}

theorem lock_unlock (hj : j ∈ l.locks) : (l.unlock j).lock j = l := by
  rw [lock, unlock]
  simp [Set.insert_eq_of_mem hj]

theorem unlock_lock (hj : j ∉ l.locks) : (l.lock j).unlock j = l := by
  rw [lock, unlock]
  simp [hj]

end Local

variable {P : Type} {s t : Volume P × Ghost P} {p q : P} {i : ℕ} {j k : Ptr} {f : FileId}
variable {sb : Superblock} {l : Local} {X : Volume P × Ghost P → Prop} {α : Type}

structure Core (p : P) (l : Local) (s : Volume P × Ghost P) : Prop where
  used : s.1.used p = true
  cwd : s.1.cwd p = l.cwd
  ofile : s.1.ofile p = l.ofile
  vars : s.2.vars p = l.vars
  fvars : s.2.fvars p = l.fvars
  ip : ∀ f ∈ l.fvars, (s.1.file f).ip = l.ips f
  lock : ∀ j, (s.1.entry j).lock = some p ↔ j ∈ l.locks

structure On (p : P) (l : Local) (j : Ptr) (X : Volume P × Ghost P → Prop)
    (s : Volume P × Ghost P) : Prop where
  core : Core p l s
  mem : j ∈ l.locks
  others : ∀ k ∈ l.locks, k ≠ j → Sound s k
  own : X s

structure Has (p : P) (l : Local) (s : Volume P × Ghost P) : Prop where
  core : Core p l s
  hand : s.2.hand p = 0
  sound : ∀ j ∈ l.locks, Sound s j

/-- With empty hands, and `j` in order. -/
def Orderly (p : P) (j : Ptr) (s : Volume P × Ghost P) : Prop := s.2.hand p = 0 ∧ Steady s j

theorem Has.on (h : Has p l s) (hj : j ∈ l.locks) :
    On p l j (fun s => s.2.hand p = 0 ∧ Sound s j) s :=
  ⟨h.core, hj, fun k hk _ => h.sound k hk, h.hand, h.sound j hj⟩

theorem On.has (h : On p l j (fun s => s.2.hand p = 0 ∧ Sound s j) s) : Has p l s where
  core := h.core
  hand := h.own.1
  sound k hk := by
    by_cases hkj : k = j
    · rw [hkj]
      exact h.own.2
    · exact h.others k hk hkj

theorem On.imp {Y : Volume P × Ghost P → Prop} (h : On p l j X s) (himp : X s → Y s) :
    On p l j Y s := ⟨h.core, h.mem, h.others, himp h.own⟩

theorem On.locked (h : On p l j X s) : (s.1.entry j).lock = some p := (h.core.lock j).mpr h.mem

theorem Core.uses (h : Core p l s) : Uses p j s ↔ l.Uses j := by
  rw [Uses, Local.Uses, h.vars, h.fvars]
  refine or_congr_right (exists_congr fun f => and_congr_right fun hf => ?_)
  rw [h.ip f hf]

variable [Fintype P]

variable (P sb) in
/-- From `A`, the program ends in `Q`, in spite of what the others do. -/
abbrev Spec (p : P) (A : Volume P × Ghost P → Prop) (c : Routine P α)
    (Q : α → Volume P × Ghost P → Prop) : Prop := (logic P sb).Meets p A c Q

variable (P sb) in
abbrev Steadfast (p : P) (A : Volume P × Ghost P → Prop) : Prop := (logic P sb).Stable p A

/-! ## Others change nothing of it -/

omit [Fintype P] in
theorem Core.kept (h : Core p l s) (hrely : Rely p s t) : Kept p s t := hrely.kept h.used

theorem stable_core : Steadfast P sb p (Core p l) := fun s t _ _ hrely h => by
  have hkept := h.kept hrely
  have hsame := hkept.same
  refine ⟨by rw [hsame.used, h.used], by rw [hsame.cwd, h.cwd], by rw [hsame.ofile, h.ofile],
    by rw [hsame.vars, h.vars], by rw [hsame.fvars, h.fvars], fun f hf => ?_, fun j => by
      rw [hkept.lock, h.lock]⟩
  rw [(hkept.file f (by rwa [h.fvars])).1, h.ip f hf]

theorem Kept.steady (h : Kept p s t) (hs : Inv sb s) (hlock : (s.1.entry j).lock = some p)
    (hsteady : Steady s j) : Steady t j :=
  hsteady.congr (h.contents j hlock) (h.key j (hs.locked j p hlock)).2 (h.quiet _ ⟨j, hlock, rfl⟩)

theorem Kept.sound (h : Kept p s t) (hs : Inv sb s) (hlock : (s.1.entry j).lock = some p)
    (hsound : Sound s j) : Sound t j :=
  hsound.congr (h.contents j hlock) (h.key j (hs.locked j p hlock)).2 (h.quiet _ ⟨j, hlock, rfl⟩)

theorem stable_has : Steadfast P sb p (Has p l) := fun s t hs ht hrely h => by
  have hkept := h.core.kept hrely
  refine ⟨stable_core s t hs ht hrely h.core, ?_, fun j hj => ?_⟩
  · rw [hkept.hand.hand, h.hand]
  · exact hkept.sound hs ((h.core.lock j).mpr hj) (h.sound j hj)

/-- Something about a locked inode is stable if it is kept when its entry, its inode and its blocks
are, and what is in the hand of the process. -/
def KeptBy (sb : Superblock) (p : P) (j : Ptr) (X : Volume P × Ghost P → Prop) : Prop :=
  ∀ s t, Inv sb s → (s.1.entry j).lock = some p → Kept p s t → X s → X t

theorem stable_on (hX : KeptBy sb p j X) : Steadfast P sb p (On p l j X) :=
  fun s t hs ht hrely h => by
    have hkept := h.core.kept hrely
    exact ⟨stable_core s t hs ht hrely h.core, h.mem, fun k hk hne =>
      hkept.sound hs ((h.core.lock k).mpr hk) (h.others k hk hne), hX s t hs h.locked hkept h.own⟩

theorem keptBy_orderly : KeptBy sb p j (Orderly p j) := fun _ _ hs hlock hkept h =>
  ⟨hkept.hand.hand.trans h.1, hkept.steady hs hlock h.2⟩

/-! ## Steps that change nothing -/

omit [Fintype P] in
theorem Frame.refl (p : P) (s : Volume P × Ghost P) : Frame p s s where
  same q _ _ := Same.refl q s
  born _ _ _ h := h
  hand q _ := HandKept.refl q s
  lock _ _ _ := Iff.rfl
  contents j _ _ := SameContents.refl j s
  key j _ := SameKey.refl j s
  file _ _ f _ := SameFile.refl f s
  quiet i _ := Quiet.refl i s

variable {A : Volume P × Ghost P → Prop}

theorem spec_read {f : Volume P → α} (hA : Steadfast P sb p A) :
    Spec P sb p A (Code.read f) fun a s => A s ∧ a = f s.1 :=
  Logic.meets_atomic hA fun t hinv h =>
    Logic.does_next (g := t.2) rfl hinv (Frame.refl p t) ⟨h, rfl⟩

theorem spec_getinode (hA : Steadfast P sb p A) :
    Spec P sb p A (getinode j) fun e s => A s ∧ e = s.1.entry j := spec_read hA

/-- Nothing need be known of what is read. -/
theorem spec_look {f : Volume P → α} (hA : Steadfast P sb p A) :
    Spec P sb p A (Code.read f) fun _ => A := (spec_read hA).mono fun _ _ _ h => h.1

/-! ## Locks -/

section Locks

variable [DecidableEq P]

omit [DecidableEq P] [Fintype P] in
theorem Core.relock (h : Core p l s) {lock : Option P} {locks : Set Ptr}
    (hlocks : ∀ k, k ≠ j → (k ∈ locks ↔ k ∈ l.locks)) (hj : lock = some p ↔ j ∈ locks) :
    Core p { l with locks := locks } (relock s j lock) := by
  refine ⟨h.used, h.cwd, h.ofile, h.vars, h.fvars, h.ip, fun k => ?_⟩
  by_cases hk : k = j
  · subst hk
    rw [relock_self, hj]
  · rw [relock_of_ne s lock hk, h.lock, hlocks k hk]

omit [DecidableEq P] in
theorem spec_acquiresleep (huses : l.Uses j) :
    Spec P sb p (Has p l) (acquiresleep p j)
      fun _ s => j ∉ l.locks ∧ On p (l.lock j) j (Orderly p j) s := by
  refine Logic.meets_atomic stable_has fun t hinv h => ?_
  by_cases hfree : (t.1.entry j).lock = none
  · have hstep : Relock p t j (some p) := .acquire hfree (h.core.uses.mpr huses)
    refine Logic.does_next (g := t.2) (if_pos hfree) (hstep.inv hinv) hstep.frame ⟨fun hj => ?_,
      h.core.relock (fun k hk => ?_) ?_, Set.mem_insert j _, fun k hk hne => ?_, h.hand,
      (hstep.steady hinv).relock j _⟩
    · have hlock := (h.core.lock j).mpr hj
      rw [hfree] at hlock
      cases hlock
    · exact Set.mem_insert_iff.trans (or_iff_right hk)
    · exact iff_of_true rfl (Set.mem_insert j _)
    · exact (h.sound k ((Set.mem_insert_iff.mp hk).resolve_left hne)).relock j _
  · exact Logic.does_blocked (if_neg hfree)

omit [DecidableEq P] in
theorem spec_releasesleep :
    Spec P sb p (On p l j (Orderly p j)) (releasesleep j) fun _ => Has p (l.unlock j) := by
  refine Logic.meets_atomic (stable_on keptBy_orderly) fun t hinv h => ?_
  have hstep : Relock p t j none := .release h.locked h.own.2
  refine Logic.does_next (g := t.2) rfl (hstep.inv hinv) hstep.frame
    ⟨h.core.relock (fun k hk => ?_) ?_, h.own.1, ?_⟩
  · exact Set.mem_sdiff_singleton.trans (and_iff_left hk)
  · exact iff_of_false (by simp) fun hmem => (Set.mem_sdiff_singleton.mp hmem).2 rfl
  · intro k hk
    obtain ⟨hk, hne⟩ := Set.mem_sdiff_singleton.mp hk
    exact (h.others k hk hne).relock j _

end Locks

end Volume

end Xv6
