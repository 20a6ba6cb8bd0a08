import Xv6.Files.Content
import Xv6.Lib.References
import Xv6.Volume.Calls

/-!
# Who has what

The ghost says which block each place of each inode has, which block a process has in its hand
(between `balloc` and where the number is stored), and which references a process has to inodes and
to files, that of its current directory and those of its descriptors included.

`Inv` holds between any two steps.  Whoever has locked an inode may have it in disorder: `Settled`
and `copy` are about the others.  `Frame p` is what a step of `p` leaves alone, and `Rely p` what
the others leave alone while `p` waits.
-/

namespace Xv6

open Files Interleaving References Marking
open Inodes (Ptr)
open Ftable (FileId Fd)

namespace Volume

structure Ghost (P : Type) where
  place : ℕ × Files.Slot → ℕ
  hand : P → ℕ
  vars : P → Multiset Ptr
  fvars : P → Multiset FileId

variable {P : Type} {s t u : Volume P × Ghost P} {p q : P} {i : ℕ} {j k : Ptr} {f : FileId}
variable {sb : Superblock}

def Ghost.holder (g : Ghost P) : (ℕ × Files.Slot) ⊕ P → ℕ := Sum.elim g.place g.hand

/-- The references to inodes: those of the processes, and one in each open file. -/
def holds (s : Volume P × Ghost P) : P ⊕ FileId → Multiset Ptr :=
  Sum.elim s.2.vars fun f => References.place (s.1.file f).ip

/-! ## One inode -/

/-- What an inode has in a place, nothing if it is free. -/
def addrOf (d : Dinode) (block : ℕ → Files.Block) (slot : Files.Slot) : ℕ :=
  if d.type = 0 then 0 else d.slot block slot

/-- Inode `i` has the blocks that `d` says. -/
def Tied (s : Volume P × Ghost P) (i : ℕ) (d : Dinode) : Prop :=
  ∀ slot, s.2.place (i, slot) = addrOf d s.1.disk.block slot

/-- The inode on the disk is in order. -/
structure Settled (s : Volume P × Ghost P) (i : ℕ) : Prop where
  tied : Tied s i (s.1.disk.dinode i)
  whole : s.1.disk.Whole i

/-- The contents of an inode that nobody has locked, with its entry of the cache. -/
structure Steady (s : Volume P × Ghost P) (j : Ptr) : Prop where
  settled : Settled s (s.1.entry j).inum
  copy : (s.1.entry j).valid = true →
    (s.1.entry j).toDinode = s.1.disk.dinode (s.1.entry j).inum ∧ (s.1.entry j).type ≠ 0

/-- The same with an entry that has been read: what a process finds that has locked it. -/
structure Sound (s : Volume P × Ghost P) (j : Ptr) : Prop where
  steady : Steady s j
  valid : (s.1.entry j).valid = true

def LockedBy (p : P) (i : ℕ) (s : Volume P × Ghost P) : Prop :=
  ∃ j, (s.1.entry j).lock = some p ∧ (s.1.entry j).inum = i

/-- Nobody has locked the inode. -/
def Unlocked (i : ℕ) (v : Volume P) : Prop := ∀ j, (v.entry j).lock ≠ none → (v.entry j).inum ≠ i

/-- The process has a reference to the entry, or one to a file that has one. -/
def Uses (p : P) (j : Ptr) (s : Volume P × Ghost P) : Prop :=
  j ∈ s.2.vars p ∨ ∃ f ∈ s.2.fvars p, (s.1.file f).ip = some j

variable (sb) in
structure Inv [Fintype P] (s : Volume P × Ghost P) : Prop where
  marked : Marked sb.dataStart sb.size s.2.holder s.1.disk.bitmap
  reserved : ∀ b < sb.dataStart, s.1.disk.bitmap b = true
  counted : Counted (fun j => (s.1.entry j).ref) (holds s)
  files : Counted (fun f => (s.1.file f).ref) s.2.fvars
  unique : ∀ j k, 0 < (s.1.entry j).ref → 0 < (s.1.entry k).ref →
    (s.1.entry j).inum = (s.1.entry k).inum → j = k
  dev : ∀ j, 0 < (s.1.entry j).ref → (s.1.entry j).dev = ROOTDEV
  locked : ∀ j p, (s.1.entry j).lock = some p → Uses p j s
  steady : ∀ j, (s.1.entry j).lock = none → 0 < (s.1.entry j).ref → Steady s j
  settled : ∀ i, Unlocked i s.1 → Settled s i
  closed : ∀ f, (s.1.file f).ref = 0 → (s.1.file f).ip = none
  fresh : ∀ f p q, (s.1.file f).ip = none → f ∈ s.2.fvars p → f ∈ s.2.fvars q → p = q
  unused : ∀ p, s.1.used p = false → s.2.vars p = 0 ∧ s.2.fvars p = 0

/-! ## Between two calls -/

/-- The process is in no call. -/
structure Idle (p : P) (s : Volume P × Ghost P) : Prop where
  hand : s.2.hand p = 0
  lock : ∀ j, (s.1.entry j).lock ≠ some p
  ready : s.1.used p = true → (∃ cwd, s.1.cwd p = some cwd ∧ s.2.vars p = {cwd}) ∧
    s.2.fvars p = References.slots (s.1.ofile p) ∧ ∀ f ∈ s.2.fvars p, (s.1.file f).ip ≠ none

/-! ## What others leave alone -/

/-- An inode just after `ialloc` has found it. -/
structure Fresh (d : Dinode) : Prop where
  size : d.size = 0
  addrs : d.addrs = fun _ => 0

/-- Inode `i` and its blocks stay as they are, unless it has been free and is allocated. -/
structure Quiet (i : ℕ) (s t : Volume P × Ghost P) : Prop where
  dinode : t.1.disk.dinode i = s.1.disk.dinode i ∨
    (s.1.disk.dinode i).type = 0 ∧ Fresh (t.1.disk.dinode i)
  place : ∀ slot, t.2.place (i, slot) = s.2.place (i, slot)
  block : ∀ slot, s.2.place (i, slot) ≠ 0 →
    t.1.disk.block (s.2.place (i, slot)) = s.1.disk.block (s.2.place (i, slot))

/-- What is a process's own. -/
structure Same (p : P) (s t : Volume P × Ghost P) : Prop where
  used : t.1.used p = s.1.used p
  cwd : t.1.cwd p = s.1.cwd p
  ofile : t.1.ofile p = s.1.ofile p
  vars : t.2.vars p = s.2.vars p
  fvars : t.2.fvars p = s.2.fvars p

/-- The block in the hand of `p` stays there, with what is in it. -/
structure HandKept (p : P) (s t : Volume P × Ghost P) : Prop where
  hand : t.2.hand p = s.2.hand p
  block : s.2.hand p ≠ 0 → t.1.disk.block (s.2.hand p) = s.1.disk.block (s.2.hand p)

def SameFile (f : FileId) (s t : Volume P × Ghost P) : Prop :=
  (t.1.file f).ip = (s.1.file f).ip ∧ (t.1.file f).readable = (s.1.file f).readable ∧
    (t.1.file f).writable = (s.1.file f).writable

def SameContents (j : Ptr) (s t : Volume P × Ghost P) : Prop :=
  (t.1.entry j).toDinode = (s.1.entry j).toDinode ∧ (t.1.entry j).valid = (s.1.entry j).valid

def SameKey (j : Ptr) (s t : Volume P × Ghost P) : Prop :=
  (t.1.entry j).dev = (s.1.entry j).dev ∧ (t.1.entry j).inum = (s.1.entry j).inum

/-- What the others leave alone while a process waits that is in use. -/
structure Kept (p : P) (s t : Volume P × Ghost P) : Prop where
  same : Same p s t
  hand : HandKept p s t
  lock : ∀ j, (t.1.entry j).lock = some p ↔ (s.1.entry j).lock = some p
  contents : ∀ j, (s.1.entry j).lock = some p → SameContents j s t
  key : ∀ j, Uses p j s → SameKey j s t
  file : ∀ f ∈ s.2.fvars p, SameFile f s t
  quiet : ∀ i, LockedBy p i s → Quiet i s t

/-- Others may fork into a slot that is free. -/
structure Rely (p : P) (s t : Volume P × Ghost P) : Prop where
  kept : s.1.used p = true → Kept p s t
  born : s.1.used p = false → Idle p s → Idle p t

structure Frame (p : P) (s t : Volume P × Ghost P) : Prop where
  same : ∀ q, q ≠ p → s.1.used q = true → Same q s t
  born : ∀ q, q ≠ p → s.1.used q = false → Idle q s → Idle q t
  hand : ∀ q, q ≠ p → HandKept q s t
  lock : ∀ q, q ≠ p → ∀ j, (t.1.entry j).lock = some q ↔ (s.1.entry j).lock = some q
  contents : ∀ j, (s.1.entry j).lock ≠ some p → 0 < (s.1.entry j).ref → SameContents j s t
  key : ∀ j, 0 < (s.1.entry j).ref → SameKey j s t
  file : ∀ q, q ≠ p → ∀ f ∈ s.2.fvars q, SameFile f s t
  quiet : ∀ i, ¬ LockedBy p i s → Quiet i s t

/-! ## Inodes that others leave alone -/

theorem Quiet.refl (i : ℕ) (s : Volume P × Ghost P) : Quiet i s s :=
  ⟨Or.inl rfl, fun _ => rfl, fun _ _ => rfl⟩

theorem Quiet.trans (h : Quiet i s t) (h' : Quiet i t u) : Quiet i s u where
  dinode := by
    rcases h.dinode with hsame | ⟨hfree, hfresh⟩
    · rw [← hsame]
      exact h'.dinode
    · rcases h'.dinode with hsame' | ⟨-, hfresh'⟩
      · rw [hsame']
        exact Or.inr ⟨hfree, hfresh⟩
      · exact Or.inr ⟨hfree, hfresh'⟩
  place slot := (h'.place slot).trans (h.place slot)
  block slot hpos := by
    have hplace := h.place slot
    have hblock := h'.block slot (by rwa [hplace])
    rw [hplace] at hblock
    rw [hblock, h.block slot hpos]

theorem addrOf_free {d : Dinode} {block : ℕ → Files.Block} {slot : Files.Slot} (h : d.type = 0) :
    addrOf d block slot = 0 := if_pos h

theorem addrOf_of_type {d : Dinode} {block : ℕ → Files.Block} {slot : Files.Slot}
    (h : d.type ≠ 0) : addrOf d block slot = d.slot block slot := if_neg h

theorem addrOf_fresh {d : Dinode} {block : ℕ → Files.Block} {slot : Files.Slot} (h : Fresh d) :
    addrOf d block slot = 0 := by
  have hzero : d.addrs NDIRECT = 0 := by rw [h.addrs]
  unfold addrOf
  split
  · rfl
  cases slot with
  | table => exact hzero
  | data bn =>
      by_cases hdirect : bn.1 < NDIRECT
      · exact (addr_direct hdirect).trans (by rw [h.addrs])
      · exact addr_no_table (by omega) hzero

/-- Where the addresses lead depends on the indirect block. -/
theorem addrOf_congr {d : Dinode} {block block' : ℕ → Files.Block} {slot : Files.Slot}
    (h : addrOf d block .table ≠ 0 →
      block' (addrOf d block .table) = block (addrOf d block .table)) :
    addrOf d block' slot = addrOf d block slot := by
  by_cases htype : d.type = 0
  · rw [addrOf_free htype, addrOf_free htype]
  rw [addrOf_of_type htype] at h
  rw [addrOf_of_type htype, addrOf_of_type htype]
  cases slot with
  | table => rfl
  | data bn =>
      by_cases htable : d.addrs NDIRECT = 0
      · simp only [Dinode.slot, Dinode.addr, htable, if_true]
      · have hblock : block' (d.addrs NDIRECT) = block (d.addrs NDIRECT) := h htable
        simp only [Dinode.slot, Dinode.addr, hblock]

theorem Tied.quiet {d : Dinode} (h : Tied s i d) (hplace : ∀ slot, t.2.place (i, slot) =
    s.2.place (i, slot)) (hblock : ∀ slot, s.2.place (i, slot) ≠ 0 →
      t.1.disk.block (s.2.place (i, slot)) = s.1.disk.block (s.2.place (i, slot))) :
    Tied t i d := fun slot => by
  rw [hplace, h slot]
  refine (addrOf_congr fun hpos => ?_).symm
  rw [← h .table] at hpos ⊢
  exact hblock .table hpos

theorem whole_of_size {D : Files.Disk} (h : (D.dinode i).size = 0) : D.Whole i := fun k hk => by
  omega

/-- The blocks of an inode of the disk that is in order are those that it has. -/
theorem Settled.place_eq (h : Settled s i) (slot : Files.Slot) :
    s.1.disk.place (i, slot) = s.2.place (i, slot) := (h.tied slot).symm

theorem Settled.quiet (h : Settled s i) (hq : Quiet i s t) : Settled t i := by
  rcases hq.dinode with hsame | ⟨hfree, hfresh⟩
  · have htied : Tied t i (t.1.disk.dinode i) := by
      rw [hsame]
      exact h.tied.quiet hq.place hq.block
    refine ⟨htied, fun k hk => ?_⟩
    rw [hsame] at hk
    have hpos := h.whole k hk
    have hmax := lt_of_number hpos
    rw [number_of_lt hmax, h.place_eq] at hpos
    rw [number_of_lt hmax]
    have hplace : t.1.disk.place (i, .data ⟨k / BSIZE, hmax⟩) = t.2.place (i, _) :=
      (htied _).symm
    rwa [hplace, hq.place]
  · refine ⟨fun slot => ?_, whole_of_size hfresh.size⟩
    rw [addrOf_fresh hfresh, hq.place, h.tied, addrOf_free hfree]

theorem Steady.congr (h : Steady s j) (hcontents : SameContents j s t)
    (hinum : (t.1.entry j).inum = (s.1.entry j).inum) (hq : Quiet (s.1.entry j).inum s t) :
    Steady t j := by
  refine ⟨?_, fun hvalid => ?_⟩
  · rw [hinum]
    exact h.settled.quiet hq
  · rw [hcontents.2] at hvalid
    obtain ⟨hcopy, htype⟩ := h.copy hvalid
    rw [hinum, hcontents.1]
    refine ⟨?_, htype⟩
    rcases hq.dinode with hsame | ⟨hfree, -⟩
    · rw [hsame, hcopy]
    · rw [hcopy] at htype
      exact absurd hfree htype

theorem Sound.congr (h : Sound s j) (hcontents : SameContents j s t)
    (hinum : (t.1.entry j).inum = (s.1.entry j).inum) (hq : Quiet (s.1.entry j).inum s t) :
    Sound t j :=
  ⟨h.steady.congr hcontents hinum hq, by rw [hcontents.2, h.valid]⟩

namespace Sound

theorem copy (h : Sound s j) :
    (s.1.entry j).toDinode = s.1.disk.dinode (s.1.entry j).inum := (h.steady.copy h.valid).1

theorem type (h : Sound s j) : (s.1.entry j).type ≠ 0 := (h.steady.copy h.valid).2

theorem tied (h : Sound s j) : Tied s (s.1.entry j).inum (s.1.entry j).toDinode := by
  rw [h.copy]
  exact h.steady.settled.tied

end Sound

/-! ## The invariant -/

namespace Inv

variable [Fintype P]

theorem ref_pos (h : Inv sb s) (huses : Uses p j s) : 0 < (s.1.entry j).ref := by
  rcases huses with hvar | ⟨f, -, hip⟩
  · have hmem : j ∈ holds s (.inl p) := hvar
    exact h.counted.pos hmem
  · have hmem : j ∈ holds s (.inr f) := by
      show j ∈ References.place (s.1.file f).ip
      rw [hip, place_some]
      exact Multiset.mem_singleton_self j
    exact h.counted.pos hmem

theorem locked_pos (h : Inv sb s) (hlock : (s.1.entry j).lock = some p) : 0 < (s.1.entry j).ref :=
  h.ref_pos (h.locked j p hlock)

theorem file_pos (h : Inv sb s) (hf : f ∈ s.2.fvars p) : 0 < (s.1.file f).ref := h.files.pos hf

/-- An entry that is in use is the only one of its inode. -/
theorem lockedBy_iff (h : Inv sb s) (hpos : 0 < (s.1.entry j).ref) :
    LockedBy p (s.1.entry j).inum s ↔ (s.1.entry j).lock = some p := by
  constructor
  · rintro ⟨k, hlock, hinum⟩
    obtain rfl := h.unique k j (h.locked_pos hlock) hpos hinum
    exact hlock
  · exact fun hlock => ⟨j, hlock, rfl⟩

/-- One inode is locked by one process. -/
theorem lockedBy_unique (h : Inv sb s) (hp : LockedBy p i s) (hq : LockedBy q i s) : p = q := by
  obtain ⟨j, hj, rfl⟩ := hp
  rw [h.lockedBy_iff (h.locked_pos hj)] at hq
  exact Option.some.inj (hj.symm.trans hq)

omit [Fintype P] in
theorem not_lockedBy_of_unlocked (hi : Unlocked i s.1) : ¬ LockedBy p i s := by
  rintro ⟨j, hlock, hinum⟩
  exact hi j (by simp [hlock]) hinum

/-- Different places have different blocks, and none of them is in somebody's hand. -/
theorem place_inj (h : Inv sb s) {a b : ℕ × Files.Slot} (hpos : s.2.place a ≠ 0)
    (heq : s.2.place a = s.2.place b) : a = b :=
  Sum.inl.inj (h.marked.inj (.inl a) (.inl b) hpos heq)

theorem place_ne_hand (h : Inv sb s) {a : ℕ × Files.Slot} (hpos : s.2.place a ≠ 0) :
    s.2.place a ≠ s.2.hand p := fun heq =>
  Sum.inl_ne_inr (h.marked.inj (.inl a) (.inr p) hpos heq)

theorem hand_ne (h : Inv sb s) (hpos : s.2.hand p ≠ 0) (hne : p ≠ q) :
    s.2.hand p ≠ s.2.hand q := fun heq =>
  hne (Sum.inr.inj (h.marked.inj (.inr p) (.inr q) hpos heq))

theorem place_range (h : Inv sb s) {a : ℕ × Files.Slot} (hpos : s.2.place a ≠ 0) :
    sb.dataStart ≤ s.2.place a ∧ s.2.place a < sb.size := h.marked.range (.inl a) hpos

theorem hand_range (h : Inv sb s) (hpos : s.2.hand p ≠ 0) :
    sb.dataStart ≤ s.2.hand p ∧ s.2.hand p < sb.size := h.marked.range (.inr p) hpos

end Inv

/-! ## The logic -/

theorem Same.refl (p : P) (s : Volume P × Ghost P) : Same p s s := ⟨rfl, rfl, rfl, rfl, rfl⟩

theorem Same.trans (h : Same p s t) (h' : Same p t u) : Same p s u :=
  ⟨h'.used.trans h.used, h'.cwd.trans h.cwd, h'.ofile.trans h.ofile, h'.vars.trans h.vars,
    h'.fvars.trans h.fvars⟩

theorem HandKept.refl (p : P) (s : Volume P × Ghost P) : HandKept p s s := ⟨rfl, fun _ => rfl⟩

theorem HandKept.trans (h : HandKept p s t) (h' : HandKept p t u) : HandKept p s u := by
  refine ⟨h'.hand.trans h.hand, fun hpos => ?_⟩
  have hblock := h'.block (by rwa [h.hand])
  rw [h.hand] at hblock
  rw [hblock, h.block hpos]

theorem SameFile.refl (f : FileId) (s : Volume P × Ghost P) : SameFile f s s := ⟨rfl, rfl, rfl⟩

theorem SameContents.refl (j : Ptr) (s : Volume P × Ghost P) : SameContents j s s := ⟨rfl, rfl⟩

theorem SameKey.refl (j : Ptr) (s : Volume P × Ghost P) : SameKey j s s := ⟨rfl, rfl⟩

theorem Kept.refl (p : P) (s : Volume P × Ghost P) : Kept p s s where
  same := Same.refl p s
  hand := HandKept.refl p s
  lock _ := Iff.rfl
  contents j _ := SameContents.refl j s
  key j _ := SameKey.refl j s
  file f _ := SameFile.refl f s
  quiet i _ := Quiet.refl i s

theorem Kept.uses (h : Kept p s t) (huses : Uses p j s) : Uses p j t := by
  rcases huses with hvar | ⟨f, hf, hip⟩
  · exact Or.inl (by rwa [h.same.vars])
  · exact Or.inr ⟨f, by rwa [h.same.fvars], by rwa [(h.file f hf).1]⟩

/-- A process that is in no call stays so while others go on. -/
theorem Idle.rely (hidle : Idle p s) (h : Rely p s t) : Idle p t := by
  by_cases hused : s.1.used p = true
  · have hkept := h.kept hused
    have hsame := hkept.same
    refine ⟨hkept.hand.hand.trans hidle.hand, fun j hlock => hidle.lock j ((hkept.lock j).mp hlock),
      fun _ => ?_⟩
    obtain ⟨hcwd, hfvars, hip⟩ := hidle.ready hused
    rw [hsame.vars, hsame.fvars, hsame.ofile, hsame.cwd]
    refine ⟨hcwd, hfvars, fun f hf => ?_⟩
    rw [(hkept.file f hf).1]
    exact hip f hf
  · exact h.born (by simpa using hused) hidle

theorem Rely.refl (p : P) (s : Volume P × Ghost P) : Rely p s s := ⟨fun _ => Kept.refl p s,
  fun _ h => h⟩

variable [Fintype P]

theorem Kept.lockedBy (h : Kept p s t) (hs : Inv sb s) (hi : LockedBy p i s) : LockedBy p i t := by
  obtain ⟨j, hlock, rfl⟩ := hi
  exact ⟨j, (h.lock j).mpr hlock, (h.key j (hs.locked j p hlock)).2⟩

theorem Kept.trans (h : Kept p s t) (h' : Kept p t u) (hs : Inv sb s) : Kept p s u where
  same := h.same.trans h'.same
  hand := h.hand.trans h'.hand
  lock j := (h'.lock j).trans (h.lock j)
  contents j hlock := by
    have hcontents := h.contents j hlock
    have hcontents' := h'.contents j ((h.lock j).mpr hlock)
    exact ⟨hcontents'.1.trans hcontents.1, hcontents'.2.trans hcontents.2⟩
  key j huses := by
    have hkey := h.key j huses
    have hkey' := h'.key j (h.uses huses)
    exact ⟨hkey'.1.trans hkey.1, hkey'.2.trans hkey.2⟩
  file f hf := by
    have hfile := h.file f hf
    have hfile' := h'.file f (by rwa [h.same.fvars])
    exact ⟨hfile'.1.trans hfile.1, hfile'.2.1.trans hfile.2.1, hfile'.2.2.trans hfile.2.2⟩
  quiet i hi := (h.quiet i hi).trans (h'.quiet i (h.lockedBy hs hi))

theorem Rely.trans (h : Rely p s t) (h' : Rely p t u) (hs : Inv sb s) : Rely p s u where
  kept hused := by
    have hkept := h.kept hused
    exact hkept.trans (h'.kept (by rwa [hkept.same.used])) hs
  born hused hidle := (h.born hused hidle).rely h'

/-- What one process leaves alone is what another one relies on. -/
theorem Frame.rely (h : Frame p s t) (hs : Inv sb s) (hne : p ≠ q) : Rely q s t where
  kept hused :=
    { same := h.same q hne.symm hused
      hand := h.hand q hne.symm
      lock := h.lock q hne.symm
      contents := fun j hlock => h.contents j
        (fun hp => hne (Option.some.inj (hp.symm.trans hlock))) (hs.locked_pos hlock)
      key := fun j huses => h.key j (hs.ref_pos huses)
      file := h.file q hne.symm
      quiet := fun i hi => h.quiet i fun hp => hne (hs.lockedBy_unique hp hi) }
  born := h.born q hne.symm

/-- The errors that may occur: something is used up, or a directory is not as it should be. -/
def Expected (message : String) : Prop :=
  message ∈ ["balloc: out of blocks", "ialloc: no inodes", "iget: no inodes", "ilock: no type",
    "dirlookup not DIR", "dirlookup read", "dirlink read", "dirlink", "isdirempty: readi",
    "unlink: nlink < 1", "unlink: writei", "create dots", "create: dirlink", "init exiting"]

variable (P sb) in
def logic : Logic P (Volume P) (Ghost P) where
  inv := Inv sb
  rely := Rely
  guar := Frame
  allowed := Expected
  refl := Rely.refl
  trans _ _ _ _ hs _ h h' := h.trans h' hs
  interfere _ _ _ _ hs _ h hne := h.rely hs hne

end Volume

end Xv6
