import Xv6.Volume.Blocks

/-!
# `balloc` and `bmap`

What they do to an inode that the process has locked.  A block that there is is found, and nothing
changes (`spec_bmap_present`); otherwise blocks are taken that nobody has (`spec_bmap`).
-/

namespace Xv6

open Files Interleaving References Marking
open Inodes (Ptr)
open Ftable (FileId Fd)

namespace Volume

variable {P : Type} [Fintype P] [DecidableEq P] {s t : Volume P × Ghost P} {p q : P}
variable {i b bn n : ℕ} {j : Ptr} {sb : Superblock} {l : Local} {d d₀ : Dinode}
variable {f : Files.Slot → ℕ}

omit [Fintype P] in
/-- The blocks that somebody has, when one is taken into the hand. -/
theorem holder_hand (g : Ghost P) (b : ℕ) :
    Sum.elim g.place (Function.update g.hand p b) = Function.update g.holder (.inr p) b :=
  Sum.update_elim_inr.symm

/-- The block in the hand goes to a place. -/
theorem Inv.place_hand (h : Inv sb s) {slot : ℕ × Files.Slot} (hempty : s.2.place slot = 0)
    (hhand : s.2.hand p = b) :
    Marked sb.dataStart sb.size (Sum.elim (Function.update s.2.place slot b)
      (Function.update s.2.hand p 0)) s.1.disk.bitmap := by
  have hzero : s.2.holder (.inl slot) = 0 := hempty
  have hmove := h.marked.move (q := .inr p) Sum.inl_ne_inr hzero
  have hb : s.2.holder (.inr p) = b := hhand
  rw [hb, Ghost.holder, Sum.update_elim_inr, Sum.update_elim_inl] at hmove
  exact hmove

/-! ## A block is taken -/

theorem spec_takeBit : Spec P sb p (On p l j (Open p j i d₀ d 0 f)) (takeBit sb b) fun r s =>
    r = none ∧ On p l j (Open p j i d₀ d 0 f) s ∨
      ∃ b, r = some b ∧ b ≠ 0 ∧ On p l j (Open p j i d₀ d b f) s := by
  refine Logic.meets_atomic (stable_on keptBy_open) fun s hs hon => ?_
  have hholding := hon.own.holding
  cases hfind : ((List.range' b BPB).filter (· < sb.size)).find? fun b => !s.1.disk.bitmap b with
  | none =>
      refine Logic.does_next (a := none) (u := s.1) (g := s.2) ?_ hs (Frame.refl p s)
        (Or.inl ⟨rfl, hon⟩)
      simp only [hfind]
  | some b =>
      have hfree : s.1.disk.bitmap b = false := by simpa using List.find?_some hfind
      have hlt : b < sb.size := by
        have hmem := List.mem_of_find?_eq_some hfind
        simpa using (List.mem_filter.mp hmem).2
      have hle : sb.dataStart ≤ b := by
        by_contra hlt
        rw [hs.reserved b (by omega)] at hfree
        cases hfree
      have hpos := sb.dataStart_pos
      have hzero : s.2.holder (.inr p) = 0 := hholding.hand
      have htake := hs.marked.take hpos ⟨hle, hlt⟩ hfree hzero
      rw [← holder_hand] at htake
      have hown : Own sb p (· = i) s (s.1.setBit b true,
          { s.2 with hand := Function.update s.2.hand p b }) := by
        refine Own.of_disk _ _ ?_ (fun i' _ => ⟨Or.inl rfl, fun _ => rfl, fun _ _ => rfl⟩)
          (fun q hq => ⟨Function.update_of_ne hq .., fun _ => rfl⟩) htake fun b' hb' => ?_
        · rintro _ rfl
          exact ⟨j, hon.locked, hholding.inum⟩
        · have hne : b' ≠ b := by omega
          exact (Function.update_of_ne hne ..).trans (hs.reserved b' hb')
      have hopen : Open p j i d₀ d b f (s.1.setBit b true,
          { s.2 with hand := Function.update s.2.hand p b }) :=
        ⟨⟨hholding.inum, hholding.copy, hholding.valid, hholding.type, hholding.disk,
          Function.update_self .., hholding.place⟩, hon.own.type, hon.own.tied⟩
      refine Logic.does_next (a := some b) (u := s.1.setBit b true) (g := _) ?_
        (hown.inv hs) hown.frame
        (Or.inr ⟨b, rfl, by omega, hon.step hs hholding.inum hown hopen⟩)
      simp only [hfind]

omit [DecidableEq P] in
theorem spec_bzero :
    Spec P sb p (On p l j (Open p j i d₀ d b f)) (bzero b)
      fun _ => On p l j fun s => Open p j i d₀ d b f s ∧ s.1.disk.block b = fun _ => 0 := by
  refine spec_own keptBy_open (fun s h => h.holding.inum) fun s hs hlock h => ?_
  have hhand := h.holding.hand
  have hne : ∀ a, s.2.place a ≠ 0 → s.2.place a ≠ b := fun a hpos => by
    rw [← hhand]
    exact hs.place_ne_hand hpos
  refine ⟨s.2, Own.of_disk s.2.place s.2.hand ?_ (fun i' _ => ?_)
    (fun q hq => ?_) hs.marked hs.reserved, ⟨⟨h.holding.inum, h.holding.copy, h.holding.valid,
      h.holding.type, h.holding.disk, hhand, h.holding.place⟩, h.type, ?_⟩,
    Function.update_self ..⟩
  · rintro _ rfl
    exact ⟨j, hlock, h.holding.inum⟩
  · exact Quiet.of_write rfl (fun _ => rfl) rfl fun slot => hne _
  · refine HandKept.of_write rfl rfl fun hpos => ?_
    rw [← hhand]
    exact hs.hand_ne hpos hq
  · exact h.tied.quiet (t := (s.1.setBlock b fun _ _ => 0, s.2)) (fun _ => rfl)
      fun slot hpos => Function.update_of_ne (hne _ hpos) ..

theorem spec_ballocFrom (b : ℕ) :
    Spec P sb p (On p l j (Open p j i d₀ d 0 f)) (ballocFrom sb b) fun b s => b ≠ 0 ∧
      On p l j (fun s => Open p j i d₀ d b f s ∧ s.1.disk.block b = fun _ => 0) s := by
  induction hrest : sb.size - b using Nat.strong_induction_on generalizing b with
  | _ rest ih =>
  subst hrest
  rw [ballocFrom]
  by_cases hlt : b < sb.size
  · rw [if_pos hlt]
    refine Logic.Meets.bind spec_takeBit fun r => ?_
    cases r with
    | none =>
        have hBPB : 0 < BPB := by decide
        refine (ih (sb.size - (b + BPB)) (by omega) (b + BPB) rfl).of_imp fun s _ h => ?_
        rcases h with ⟨-, h⟩ | ⟨b, hb, -⟩
        · exact h
        · cases hb
    | some b =>
        refine Logic.Meets.of_imp (A := fun s => b ≠ 0 ∧ On p l j (Open p j i d₀ d b f) s) ?_
          fun s _ h => ?_
        · refine Logic.meets_and fun hb => spec_bzero.bind fun _ => ?_
          exact (Logic.meets_pure (Q := fun b s => b ≠ 0 ∧ On p l j
            (fun s => Open p j i d₀ d b f s ∧ s.1.disk.block b = fun _ => 0) s)).of_imp
              fun s _ h => ⟨hb, h⟩
        · rcases h with ⟨hr, -⟩ | ⟨b', hb', h⟩
          · cases hr
          · cases hb'
            exact h
  · rw [if_neg hlt]
    exact Logic.meets_fail (List.mem_cons_self ..)

theorem spec_balloc :
    Spec P sb p (On p l j (Open p j i d₀ d 0 f)) (balloc sb) fun b s => b ≠ 0 ∧
      On p l j (fun s => Open p j i d₀ d b f s ∧ s.1.disk.block b = fun _ => 0) s :=
  spec_ballocFrom 0

/-! ## A place gets the block -/

/-- Where the address of an inode leads that is set. -/
theorem addrOf_setAddr {block : ℕ → Files.Block} {k : ℕ} (hk : k ≤ NDIRECT) (htype : d.type ≠ 0)
    (hold : d.addrs k = 0) (hzero : block b = fun _ => 0) (slot : Files.Slot) :
    addrOf (d.setAddr k b) block slot =
      Function.update (addrOf d block) (slotOf k) b slot := by
  let D : Files.Disk := ⟨fun _ => false, fun _ => d, block⟩
  have hplace := congrFun (place_setAddr (D := D) (i := 0) (d := d.setAddr k b) hk htype hold
    (fun _ => hzero) rfl) (0, slot)
  have hself : (D.setDinode 0 (d.setAddr k b)).place (0, slot) =
      addrOf (d.setAddr k b) block slot := by
    simp only [Disk.place, setDinode_self]
    rfl
  rw [hself] at hplace
  rw [hplace]
  by_cases hslot : slot = slotOf k
  · rw [hslot, Function.update_self, Function.update_self]
  · rw [Function.update_of_ne hslot, Function.update_of_ne fun heq => hslot (Prod.mk.inj heq).2]
    rfl

theorem addrOf_setWord {block : ℕ → Files.Block} (hle : NDIRECT ≤ bn) (hlt : bn < MAXFILE)
    (htype : d.type ≠ 0) (htable : d.addrs NDIRECT ≠ 0) (hb : b < 2 ^ 32) (slot : Files.Slot) :
    addrOf d (Function.update block (d.addrs NDIRECT)
      (setWord (block (d.addrs NDIRECT)) (bn - NDIRECT) b)) slot =
      Function.update (addrOf d block) (.data ⟨bn, hlt⟩) b slot := by
  by_cases hslot : slot = .data ⟨bn, hlt⟩
  · rw [hslot, Function.update_self, addrOf_of_type htype]
    refine (addr_indirect hle htable).trans ?_
    rw [Function.update_self, word_setWord hb, if_pos rfl]
  rw [Function.update_of_ne hslot, addrOf_of_type htype, addrOf_of_type htype]
  cases slot with
  | table => rfl
  | data k =>
      by_cases hdirect : k.1 < NDIRECT
      · exact (addr_direct hdirect).trans (addr_direct hdirect).symm
      · have hne : k.1 - NDIRECT ≠ bn - NDIRECT := fun heq => by
          have hk : k = ⟨bn, hlt⟩ := Fin.ext (show k.1 = bn by omega)
          exact hslot (by rw [hk])
        refine (addr_indirect (by omega) htable).trans ?_
        rw [Function.update_self, word_setWord hb, if_neg hne]
        exact (addr_indirect (by omega) htable).symm

theorem slot_slotOf (block : ℕ → Files.Block) {k : ℕ} (hk : k ≤ NDIRECT) (htype : d.type ≠ 0) :
    addrOf d block (slotOf k) = d.addrs k := by
  rw [addrOf_of_type htype, slotOf]
  split
  · rename_i hlt
    exact addr_direct hlt
  · have hk : k = NDIRECT := by omega
    rw [hk]
    rfl

omit [Fintype P] in
/-- The inode with one block more, which has been in the hand. -/
theorem Open.place {slot : Files.Slot} {d' : Dinode} {t : Volume P × Ghost P}
    (h : Open p j i d₀ d b f s)
    (ht : t.2 = { s.2 with place := Function.update s.2.place (i, slot) b,
                           hand := Function.update s.2.hand p 0 })
    (hentry : t.1.entry j = { s.1.entry j with toDinode := d' })
    (hdinode : t.1.disk.dinode = s.1.disk.dinode) (htype : d'.type ≠ 0)
    (haddr : ∀ k, addrOf d' t.1.disk.block k =
      Function.update (addrOf d s.1.disk.block) slot b k) :
    Open p j i d₀ d' 0 (Function.update f slot b) t := by
  have hplace : ∀ k, t.2.place (i, k) = Function.update f slot b k := fun k => by
    rw [ht]
    by_cases hk : k = slot
    · rw [hk, Function.update_self]
      exact Function.update_self ..
    · rw [Function.update_of_ne hk, ← h.holding.place]
      exact Function.update_of_ne (fun heq => hk (Prod.mk.inj heq).2) ..
  refine ⟨⟨by rw [hentry, h.holding.inum], by rw [hentry], by rw [hentry, h.holding.valid],
    h.holding.type, ?_, ?_, hplace⟩, htype, fun k => ?_⟩
  · rw [hdinode, h.holding.disk]
  · rw [ht]
    exact Function.update_self ..
  · rw [hplace, haddr]
    by_cases hk : k = slot
    · rw [hk, Function.update_self, Function.update_self]
    · rw [Function.update_of_ne hk, Function.update_of_ne hk, h.addrOf_eq]

theorem spec_setAddr {k : ℕ} (hb : b ≠ 0) (hk : k ≤ NDIRECT) (hf : f (slotOf k) = 0) :
    Spec P sb p (On p l j fun s => Open p j i d₀ d b f s ∧ s.1.disk.block b = fun _ => 0)
      (setinode j fun d => d.setAddr k b)
      fun _ => On p l j (Open p j i d₀ (d.setAddr k b) 0 (Function.update f (slotOf k) b)) := by
  refine spec_own (keptBy_zeroed hb) (fun s h => h.1.holding.inum) fun s hs hlock ⟨h, hzero⟩ => ?_
  have hempty : s.2.place (i, slotOf k) = 0 := by rw [h.holding.place, hf]
  have haddr : d.addrs k = 0 := by
    rw [← slot_slotOf s.1.disk.block hk h.type, h.addrOf_eq, hf]
  have hmarked := hs.place_hand hempty h.holding.hand
  refine ⟨_, Own.of_contents hlock h.holding.inum (fun i' hi' slot => ?_) (fun q hq => ?_) hmarked
      hs.reserved, h.place rfl ?_ rfl h.type fun slot => ?_⟩
  · exact Function.update_of_ne (fun heq => hi' (Prod.mk.inj heq).1) ..
  · exact Function.update_of_ne hq ..
  · dsimp only
    rw [setEntry_self, h.holding.copy]
  · exact addrOf_setAddr hk h.type haddr hzero slot

theorem spec_setWord {table : ℕ} (hle : NDIRECT ≤ bn) (hlt : bn < MAXFILE)
    (htable : f .table = table) (hpos : table ≠ 0) (hf : f (.data ⟨bn, hlt⟩) = 0) :
    Spec P sb p (On p l j (Open p j i d₀ d b f))
      (bwrite table fun a => setWord a (bn - NDIRECT) b)
      fun _ => On p l j (Open p j i d₀ d 0 (Function.update f (.data ⟨bn, hlt⟩) b)) := by
  refine spec_own keptBy_open (fun s h => h.holding.inum) fun s hs hlock h => ?_
  have hempty : s.2.place (i, .data ⟨bn, hlt⟩) = 0 := by rw [h.holding.place, hf]
  have hplace : s.2.place (i, .table) = table := by rw [h.holding.place, htable]
  have haddr : d.addrs NDIRECT = table := by
    have heq := h.addrOf_eq .table
    rw [addrOf_of_type h.type, htable] at heq
    exact heq
  have hsize : b < 2 ^ 32 := by
    have hrange := hs.hand_range (p := p)
    rw [h.holding.hand] at hrange
    have := sb.size_lt
    omega
  have hmarked := hs.place_hand hempty h.holding.hand
  refine ⟨_, Own.of_disk _ _ ?_ (fun i' hi' => ?_) (fun q hq => ?_) hmarked hs.reserved,
    h.place rfl ?_ rfl h.type fun slot => ?_⟩
  · rintro _ rfl
    exact ⟨j, hlock, h.holding.inum⟩
  · refine Quiet.of_write rfl (fun slot => ?_) rfl fun slot hpos' heq => ?_
    · exact Function.update_of_ne (fun heq => hi' (Prod.mk.inj heq).1) ..
    · rw [← hplace] at heq
      exact hi' (Prod.mk.inj (hs.place_inj hpos' heq)).1
  · refine HandKept.of_write (Function.update_of_ne hq ..) rfl fun hpos' heq => ?_
    rw [← hplace] at heq hpos
    exact hs.place_ne_hand hpos heq.symm
  · show s.1.entry j = _
    rw [← h.holding.copy]
  · subst haddr
    exact addrOf_setWord hle hlt h.type hpos hsize slot

/-! ## `bmap` -/

omit [DecidableEq P] in
theorem spec_getinode_open :
    Spec P sb p (On p l j (Open p j i d₀ d b f)) (getinode j)
      fun e s => e.toDinode = d ∧ On p l j (Open p j i d₀ d b f) s :=
  (spec_getinode (stable_on keptBy_open)).mono fun e s _ ⟨h, he⟩ =>
    ⟨by rw [he, h.own.holding.copy], h⟩

/-- What allocating does to an inode: `d` and `f` become `d'` and `f'`. -/
structure Grows (d : Dinode) (f : Files.Slot → ℕ) (slot : Files.Slot) (d' : Dinode)
    (f' : Files.Slot → ℕ) : Prop where
  dinode : ∃ addrs, d' = { d with addrs := addrs }
  keep : ∀ k, f k ≠ 0 → f' k = f k
  same : f slot ≠ 0 → d' = d ∧ f' = f

theorem Grows.refl (d : Dinode) (f : Files.Slot → ℕ) (slot : Files.Slot) : Grows d f slot d f :=
  ⟨⟨d.addrs, rfl⟩, fun _ _ => rfl, fun _ => ⟨rfl, rfl⟩⟩

theorem Grows.fill {slot : Files.Slot} (hf : f slot = 0) (addrs : ℕ → ℕ) (b : ℕ) :
    Grows d f slot { d with addrs := addrs } (Function.update f slot b) where
  dinode := ⟨addrs, rfl⟩
  keep k hk := Function.update_of_ne (fun heq => hk (by rw [heq, hf])) ..
  same hpos := absurd hf hpos

theorem spec_directBlock {k : ℕ} (hk : k ≤ NDIRECT) :
    Spec P sb p (On p l j (Open p j i d₀ d 0 f)) (directBlock sb j k) fun r s =>
      r ≠ 0 ∧ ∃ d' f', Grows d f (slotOf k) d' f' ∧ f' (slotOf k) = r ∧
        On p l j (Open p j i d₀ d' 0 f') s := by
  refine spec_getinode_open.bind fun e => Logic.meets_and fun he => ?_
  subst he
  dsimp only
  have hslot : ∀ s, Open p j i d₀ e.toDinode 0 f s → f (slotOf k) = e.addrs k := fun s h => by
    rw [← h.addrOf_eq, slot_slotOf _ hk h.type]
  by_cases haddr : e.addrs k = 0
  · rw [if_pos haddr]
    refine Logic.Meets.of_imp (A := fun s => f (slotOf k) = 0 ∧
      On p l j (Open p j i d₀ e.toDinode 0 f) s) (Logic.meets_and fun hf => ?_)
      fun s _ h => ⟨(hslot s h.own).trans haddr, h⟩
    refine spec_balloc.bind fun b => Logic.meets_and fun hb => (spec_setAddr hb hk hf).bind fun _ =>
      Logic.Meets.of_imp Logic.meets_pure fun s _ h => ?_
    exact ⟨hb, _, _, Grows.fill hf _ b, Function.update_self .., h⟩
  · rw [if_neg haddr]
    refine Logic.Meets.of_imp Logic.meets_pure fun s _ h => ?_
    exact ⟨haddr, _, _, Grows.refl .., hslot s h.own, h⟩

theorem Grows.trans {slot slot' : Files.Slot} {d₁ d₂ : Dinode} {f₁ f₂ : Files.Slot → ℕ}
    (h : Grows d f slot' d₁ f₁) (h' : Grows d₁ f₁ slot d₂ f₂)
    (hdata : f slot' = 0 → f slot = 0) : Grows d f slot d₂ f₂ where
  dinode := by
    obtain ⟨addrs, rfl⟩ := h.dinode
    obtain ⟨addrs', rfl⟩ := h'.dinode
    exact ⟨addrs', rfl⟩
  keep k hk := by
    have hkeep := h.keep k hk
    rw [h'.keep k (by rwa [hkeep]), hkeep]
  same hpos := by
    obtain ⟨rfl, rfl⟩ := h.same fun hzero => hpos (hdata hzero)
    exact h'.same hpos

omit [DecidableEq P] in
/-- The entry for a block in the indirect block. -/
theorem spec_entry {table : ℕ} (hle : NDIRECT ≤ bn) (hlt : bn < MAXFILE)
    (htable : f .table = table) (hpos : table ≠ 0) :
    Spec P sb p (On p l j (Open p j i d₀ d 0 f)) (bread table) fun a s =>
      word a (bn - NDIRECT) = f (.data ⟨bn, hlt⟩) ∧ On p l j (Open p j i d₀ d 0 f) s := by
  refine (spec_read (stable_on keptBy_open)).mono fun a s _ ⟨h, ha⟩ => ⟨?_, h⟩
  have hopen := h.own
  have haddr := hopen.addrOf_eq .table
  rw [addrOf_of_type hopen.type, htable] at haddr
  have haddr : d.addrs NDIRECT = table := haddr
  rw [← hopen.addrOf_eq, addrOf_of_type hopen.type, ha, ← haddr]
  rw [← haddr] at hpos
  exact (addr_indirect hle hpos).symm

omit [Fintype P] [DecidableEq P] in
/-- An inode without an indirect block. -/
theorem Open.no_table (h : Open p j i d₀ d b f s) (hle : NDIRECT ≤ bn) (hlt : bn < MAXFILE)
    (htable : f .table = 0) : f (.data ⟨bn, hlt⟩) = 0 := by
  rw [← h.addrOf_eq, addrOf_of_type h.type] at htable ⊢
  exact addr_no_table hle htable

theorem spec_bmap (hlt : bn < MAXFILE) :
    Spec P sb p (On p l j (Open p j i d₀ d 0 f)) (bmap sb j bn) fun r s =>
      r ≠ 0 ∧ ∃ d' f', Grows d f (.data ⟨bn, hlt⟩) d' f' ∧ f' (.data ⟨bn, hlt⟩) = r ∧
        On p l j (Open p j i d₀ d' 0 f') s := by
  rw [bmap]
  by_cases hdirect : bn < NDIRECT
  · rw [if_pos hdirect]
    have hslot : slotOf bn = .data ⟨bn, hlt⟩ := dif_pos hdirect
    rw [← hslot]
    exact spec_directBlock hdirect.le
  have hindirect : bn - NDIRECT < NINDIRECT := by
    unfold MAXFILE at hlt
    omega
  rw [if_neg hdirect, if_pos hindirect]
  have hle : NDIRECT ≤ bn := by omega
  have hslot : slotOf NDIRECT = .table := dif_neg (lt_irrefl _)
  refine Logic.Meets.of_imp (A := fun s => (f .table = 0 → f (.data ⟨bn, hlt⟩) = 0) ∧
    On p l j (Open p j i d₀ d 0 f) s) (Logic.meets_and fun hdata => ?_)
    fun s _ h => ⟨h.own.no_table hle hlt, h⟩
  refine (spec_directBlock le_rfl).bind fun table => Logic.meets_and fun hpos =>
    Logic.meets_exists fun d₁ => Logic.meets_exists fun f₁ => Logic.meets_and fun hgrows =>
      Logic.meets_and fun htable => ?_
  rw [hslot] at hgrows htable
  refine (spec_entry hle hlt htable hpos).bind fun a => Logic.meets_and fun hword => ?_
  dsimp only
  by_cases haddr : word a (bn - NDIRECT) = 0
  · rw [if_pos haddr]
    rw [haddr] at hword
    refine spec_balloc.bind fun b => Logic.meets_and fun hb => ?_
    refine Logic.Meets.of_imp (A := On p l j (Open p j i d₀ d₁ b f₁)) ?_
      fun s _ h => h.imp fun hzeroed => hzeroed.1
    refine (spec_setWord hle hlt htable hpos hword.symm).bind fun _ =>
      Logic.Meets.of_imp Logic.meets_pure fun s _ h => ?_
    exact ⟨hb, _, _, hgrows.trans (Grows.fill hword.symm d₁.addrs b) hdata,
      Function.update_self .., h⟩
  · rw [if_neg haddr]
    refine Logic.Meets.of_imp Logic.meets_pure fun s _ h => ?_
    exact ⟨haddr, _, _, hgrows.trans (Grows.refl ..) hdata, hword.symm, h⟩

end Volume

end Xv6
