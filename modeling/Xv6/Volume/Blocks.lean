import Mathlib.Data.Sum.Basic
import Xv6.Volume.Local

/-!
# Blocks are taken

`balloc` and `bmap` on an inode that the process has locked.  Between the bit of the bitmap and the
place for the number, a block is in the hand of the process.

`Open` says what is known of the inode meanwhile: the entry of the cache has `d`, with new
addresses, and the disk still has `d₀`.
-/

namespace Xv6

open Files Interleaving References Marking
open Inodes (Ptr)
open Ftable (FileId Fd)

namespace Volume

variable {P : Type} {s t : Volume P × Ghost P} {p q : P} {i b n : ℕ} {j k : Ptr}
variable {sb : Superblock} {l : Local} {X Y : Volume P × Ghost P → Prop} {α : Type}
variable {d d₀ : Dinode} {K : ℕ → Prop} {f f' : Files.Slot → ℕ}

/-! ## What is known of a locked inode -/

/-- The entry has `d` and the disk `d₀`, block `b` is in the hand of the process, and the inode has
the blocks `f`. -/
structure Holding (p : P) (j : Ptr) (i : ℕ) (d₀ d : Dinode) (b : ℕ) (f : Files.Slot → ℕ)
    (s : Volume P × Ghost P) : Prop where
  inum : (s.1.entry j).inum = i
  copy : (s.1.entry j).toDinode = d
  valid : (s.1.entry j).valid = true
  type : d₀.type ≠ 0
  disk : s.1.disk.dinode i = d₀
  hand : s.2.hand p = b
  place : ∀ slot, s.2.place (i, slot) = f slot

structure Open (p : P) (j : Ptr) (i : ℕ) (d₀ d : Dinode) (b : ℕ) (f : Files.Slot → ℕ)
    (s : Volume P × Ghost P) : Prop where
  holding : Holding p j i d₀ d b f s
  type : d.type ≠ 0
  tied : Tied s i d

/-- There are blocks for the first `n` bytes. -/
def Filled (f : Files.Slot → ℕ) (n : ℕ) : Prop :=
  ∀ k < n, ∃ h : k / BSIZE < MAXFILE, f (.data ⟨k / BSIZE, h⟩) ≠ 0

theorem Filled.mono {m : ℕ} (h : Filled f n) (hm : m ≤ n) : Filled f m := fun k hk =>
  h k (by omega)

theorem Filled.congr (h : Filled f n) (hf : ∀ slot, f slot ≠ 0 → f' slot ≠ 0) : Filled f' n :=
  fun k hk => by
    obtain ⟨hmax, hpos⟩ := h k hk
    exact ⟨hmax, hf _ hpos⟩

theorem Open.addrOf_eq (h : Open p j i d₀ d b f s) (slot : Files.Slot) :
    addrOf d s.1.disk.block slot = f slot := by
  rw [← h.holding.place, h.tied]

theorem Settled.filled (h : Settled s i) :
    Filled (fun slot => s.2.place (i, slot)) (s.1.disk.dinode i).size := fun k hk => by
  have hpos := h.whole k hk
  have hmax := lt_of_number hpos
  rw [number_of_lt hmax, h.place_eq] at hpos
  exact ⟨hmax, hpos⟩

/-- The inode as one finds it under the lock. -/
theorem Sound.open (h : Sound s j) (hhand : s.2.hand p = 0) : ∃ i d f, Filled f d.size ∧
    Open p j i d d 0 f s := by
  refine ⟨(s.1.entry j).inum, (s.1.entry j).toDinode, fun slot => s.2.place (_, slot), ?_,
    ⟨rfl, rfl, h.valid, h.type, h.copy.symm, hhand, fun _ => rfl⟩, h.type, h.tied⟩
  rw [h.copy]
  exact h.steady.settled.filled

/-- And as one leaves it. -/
theorem Open.sound (h : Open p j i d d 0 f s) (hf : Filled f d.size) :
    s.2.hand p = 0 ∧ Sound s j := by
  have hdisk := h.holding.disk
  have hinum := h.holding.inum
  have htied : Tied s i (s.1.disk.dinode i) := by
    rw [hdisk]
    exact h.tied
  have hwhole : s.1.disk.Whole i := fun k hk => by
    rw [hdisk] at hk
    obtain ⟨hmax, hpos⟩ := hf k hk
    have hplace : s.1.disk.place (i, .data ⟨k / BSIZE, hmax⟩) = s.2.place (i, _) := (htied _).symm
    rwa [number_of_lt hmax, hplace, h.holding.place]
  refine ⟨h.holding.hand, ⟨⟨?_, fun _ => ?_⟩, h.holding.valid⟩⟩
  · rw [hinum]
    exact ⟨htied, hwhole⟩
  · rw [hinum, hdisk, h.holding.copy]
    exact ⟨rfl, h.type⟩

/-! ## Others leave it alone -/

section Stable

variable [Fintype P]

theorem Kept.holding (h : Kept p s t) (hs : Inv sb s) (hlock : (s.1.entry j).lock = some p)
    (hX : Holding p j i d₀ d b f s) : Holding p j i d₀ d b f t where
  inum := (h.key j (hs.locked j p hlock)).2.trans hX.inum
  copy := (h.contents j hlock).1.trans hX.copy
  valid := (h.contents j hlock).2.trans hX.valid
  type := hX.type
  disk := by
    rcases (h.quiet i ⟨j, hlock, hX.inum⟩).dinode with hsame | ⟨hfree, -⟩
    · rw [hsame, hX.disk]
    · rw [hX.disk] at hfree
      exact absurd hfree hX.type
  hand := h.hand.hand.trans hX.hand
  place slot := ((h.quiet i ⟨j, hlock, hX.inum⟩).place slot).trans (hX.place slot)

theorem Kept.open (h : Kept p s t) (hs : Inv sb s) (hlock : (s.1.entry j).lock = some p)
    (hX : Open p j i d₀ d b f s) : Open p j i d₀ d b f t := by
  have hq := h.quiet i ⟨j, hlock, hX.holding.inum⟩
  exact ⟨h.holding hs hlock hX.holding, hX.type, hX.tied.quiet hq.place hq.block⟩

theorem keptBy_open : KeptBy sb p j (Open p j i d₀ d b f) := fun _ _ hs hlock hkept h =>
  hkept.open hs hlock h

/-- The block in the hand has been zeroed. -/
theorem keptBy_zeroed (hb : b ≠ 0) : KeptBy sb p j fun s =>
    Open p j i d₀ d b f s ∧ s.1.disk.block b = fun _ => 0 := by
  intro s t hs hlock hkept ⟨h, hzero⟩
  refine ⟨hkept.open hs hlock h, ?_⟩
  have hhand := h.holding.hand
  have hblock := hkept.hand.block (by rwa [hhand])
  rw [hhand] at hblock
  rw [hblock, hzero]

end Stable

/-! ## Steps on one's own inode -/

section Steps

theorem Quiet.of_write {data : Files.Block} (hdinode : t.1.disk.dinode i = s.1.disk.dinode i)
    (hplace : ∀ slot, t.2.place (i, slot) = s.2.place (i, slot))
    (hblock : t.1.disk.block = Function.update s.1.disk.block b data)
    (hne : ∀ slot, s.2.place (i, slot) ≠ 0 → s.2.place (i, slot) ≠ b) : Quiet i s t :=
  ⟨Or.inl hdinode, hplace, fun slot hpos => by
    rw [hblock, Function.update_of_ne (hne slot hpos)]⟩

theorem HandKept.of_write {data : Files.Block} (hhand : t.2.hand q = s.2.hand q)
    (hblock : t.1.disk.block = Function.update s.1.disk.block b data)
    (hne : s.2.hand q ≠ 0 → s.2.hand q ≠ b) : HandKept q s t :=
  ⟨hhand, fun hpos => by rw [hblock, Function.update_of_ne (hne hpos)]⟩

/-- Only the disk and the blocks that one has change. -/
theorem Own.of_disk {D : Files.Disk} (place : ℕ × Files.Slot → ℕ) (hand : P → ℕ)
    (hmine : ∀ i, K i → LockedBy p i s)
    (hquiet : ∀ i, ¬ K i → Quiet i s ({ s.1 with disk := D }, { s.2 with place, hand }))
    (hhand : ∀ q, q ≠ p → HandKept q s ({ s.1 with disk := D }, { s.2 with place, hand }))
    (hmarked : Marked sb.dataStart sb.size (Sum.elim place hand) D.bitmap)
    (hreserved : ∀ b < sb.dataStart, D.bitmap b = true) :
    Own sb p K s ({ s.1 with disk := D }, { s.2 with place, hand }) where
  file := rfl
  cwd := rfl
  ofile := rfl
  used := rfl
  vars := rfl
  fvars := rfl
  entry _ := ⟨_, _, rfl⟩
  contents _ _ := rfl
  quiet := hquiet
  hand := hhand
  mine := hmine
  marked := hmarked
  reserved := hreserved

/-- The fields of an inode change that one has locked, and the blocks that one has. -/
theorem Own.of_contents {place : ℕ × Files.Slot → ℕ} {hand : P → ℕ} {d : Dinode} {v : Bool}
    (hlock : (s.1.entry j).lock = some p) (hinum : (s.1.entry j).inum = i)
    (hplace : ∀ i', i' ≠ i → ∀ slot, place (i', slot) = s.2.place (i', slot))
    (hhand : ∀ q, q ≠ p → hand q = s.2.hand q)
    (hmarked : Marked sb.dataStart sb.size (Sum.elim place hand) s.1.disk.bitmap)
    (hreserved : ∀ b < sb.dataStart, s.1.disk.bitmap b = true) :
    Own sb p (· = i) s
      (s.1.setEntry j fun e => { e with toDinode := d, valid := v },
        { s.2 with place, hand }) where
  file := rfl
  cwd := rfl
  ofile := rfl
  used := rfl
  vars := rfl
  fvars := rfl
  entry k := by
    by_cases hk : k = j
    · subst hk
      exact ⟨d, v, Function.update_self ..⟩
    · exact ⟨_, _, Function.update_of_ne hk ..⟩
  contents k hk := by
    refine Function.update_of_ne ?_ ..
    rintro rfl
    exact hk hlock hinum
  quiet i' hi' := ⟨Or.inl rfl, hplace i' hi', fun _ _ => rfl⟩
  hand q hq := ⟨hhand q hq, fun _ => rfl⟩
  mine := by
    rintro _ rfl
    exact ⟨j, hlock, hinum⟩
  marked := hmarked
  reserved := hreserved

variable [Fintype P]

omit [Fintype P] in
theorem Core.own (h : Core p l s) (hown : Own sb p K s t) : Core p l t := by
  have hsame := hown.same p
  refine ⟨hsame.used.trans h.used, hsame.cwd.trans h.cwd, hsame.ofile.trans h.ofile,
    hsame.vars.trans h.vars, hsame.fvars.trans h.fvars, ?_, fun k => ?_⟩
  · rw [hown.file]
    exact h.ip
  · rw [hown.lock_iff, h.lock]

theorem On.step (h : On p l j X s) (hs : Inv sb s) (hinum : (s.1.entry j).inum = i)
    (hown : Own sb p (· = i) s t) (hY : Y t) : On p l j Y t where
  core := h.core.own hown
  mem := h.mem
  others k hk hne := by
    refine hown.sound (fun hk' => hne ?_) (h.others k hk hne)
    have hlock := (h.core.lock k).mpr hk
    exact hs.unique k j (hs.locked_pos hlock) (hs.locked_pos h.locked) (hk'.trans hinum.symm)
  own := hY

/-- A step that changes no inode but those that are free. -/
theorem spec_has {g : Volume P → Transition.Outcome (α × Volume P)}
    (h : ∀ s, Inv sb s → Has p l s → ∃ a v, g s.1 = .next (a, v) ∧
      Own sb p (fun _ => False) s (v, s.2)) :
    Spec P sb p (Has p l) (Code.atomic g) fun _ => Has p l := by
  refine Logic.meets_atomic stable_has fun s hs hhas => ?_
  obtain ⟨a, v, hg, hown⟩ := h s hs hhas
  exact Logic.does_next hg (hown.inv hs) hown.frame
    ⟨hhas.core.own hown, hhas.hand, fun j hj => hown.sound id (hhas.sound j hj)⟩

/-- One step on one's own inode. -/
theorem does_own {f : Volume P → Transition.Outcome (α × Volume P)} {c : α} {v : Volume P}
    {g : Ghost P} {Z : α → Volume P × Ghost P → Prop} (h : On p l j X s) (hs : Inv sb s)
    (hinum : (s.1.entry j).inum = i) (hf : f s.1 = .next (c, v)) (hown : Own sb p (· = i) s (v, g))
    (hZ : Z c (v, g)) : (logic P sb).Does p f (fun c => On p l j (Z c)) s :=
  Logic.does_next hf (hown.inv hs) hown.frame (h.step hs hinum hown hZ)

theorem spec_own {m : Volume P → Volume P} (hX : KeptBy sb p j X)
    (hinum : ∀ s, X s → (s.1.entry j).inum = i)
    (h : ∀ s, Inv sb s → (s.1.entry j).lock = some p → X s →
      ∃ g, Own sb p (· = i) s (m s.1, g) ∧ Y (m s.1, g)) :
    Spec P sb p (On p l j X) (Code.modify m) fun _ => On p l j Y := by
  refine Logic.meets_atomic (stable_on hX) fun s hs hon => ?_
  obtain ⟨g, hown, hY⟩ := h s hs hon.locked hon.own
  exact does_own (Z := fun _ => Y) hon hs (hinum s hon.own) rfl hown hY

end Steps

end Volume

end Xv6
