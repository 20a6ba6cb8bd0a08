import Xv6.Volume.Contents

/-!
# `itrunc`, interleaved

All blocks of a locked inode are given back, one after another.  Other processes may take a block as
soon as it is free, so its number must not stand in the inode any longer when the lock is given up:
`Held` says meanwhile which blocks the inode still has, and it is in order again at the end
(`spec_itrunc`).
-/

namespace Xv6

open Files Interleaving Marking
open Inodes (Ptr)

namespace Volume

variable {P : Type} [Fintype P] [DecidableEq P] {s t : Volume P × Ghost P} {p : P} {i b m : ℕ}
variable {j : Ptr} {sb : Superblock} {l : Local} {d d₀ : Dinode} {f : Files.Slot → ℕ}
variable {a : Files.Block} {slot : Files.Slot} {rest : List ℕ}

/-- The inode has the blocks `f`, and `a` is in the indirect block if there is one. -/
structure Held (p : P) (j : Ptr) (i : ℕ) (d₀ d : Dinode) (f : Files.Slot → ℕ) (a : Files.Block)
    (s : Volume P × Ghost P) : Prop where
  holding : Holding p j i d₀ d 0 f s
  table : f .table ≠ 0 → s.1.disk.block (f .table) = a

omit [DecidableEq P] in
theorem keptBy_held : KeptBy sb p j (Held p j i d₀ d f a) := by
  intro s t hs hlock hkept h
  refine ⟨hkept.holding hs hlock h.holding, fun hpos => ?_⟩
  have hblock := (hkept.quiet i ⟨j, hlock, h.holding.inum⟩).block .table
  rw [h.holding.place] at hblock
  rw [hblock hpos, h.table hpos]

/-! ## Blocks are given back -/

omit [Fintype P] in
theorem holder_place (g : Ghost P) (i b : ℕ) (slot : Files.Slot) :
    Sum.elim (Function.update g.place (i, slot) b) g.hand =
      Function.update g.holder (.inl (i, slot)) b := Sum.update_elim_inl.symm

theorem spec_bfree (hb : f slot = b) (hpos : b ≠ 0) :
    Spec P sb p (On p l j (Held p j i d₀ d f a)) (bfree b)
      fun _ => On p l j (Held p j i d₀ d (Function.update f slot 0) a) := by
  refine Logic.meets_atomic (stable_on keptBy_held) fun s hs hon => ?_
  obtain ⟨hinum, hcopy, hvalid, hd₀, hdisk, hhand, hplace⟩ := hon.own.holding
  have hslot : s.2.holder (.inl (i, slot)) = b := (hplace slot).trans hb
  have hpos' : s.2.holder (.inl (i, slot)) ≠ 0 := by rwa [hslot]
  have hmark := hs.marked.marked hpos'
  have hgive := hs.marked.give sb.dataStart_pos hpos'
  have hrange := hs.marked.range _ hpos'
  rw [hslot] at hmark hgive hrange
  rw [← holder_place] at hgive
  have hown : Own sb p (· = i) s (s.1.setBit b false,
      { s.2 with place := Function.update s.2.place (i, slot) 0 }) := by
    refine Own.of_disk _ _ ?_ (fun i' hi' => ⟨Or.inl rfl, fun slot' => ?_, fun _ _ => rfl⟩)
      (fun q hq => ⟨rfl, fun _ => rfl⟩) hgive fun b' hb' => ?_
    · rintro _ rfl
      exact ⟨j, hon.locked, hinum⟩
    · exact Function.update_of_ne (fun heq => hi' (Prod.mk.inj heq).1) ..
    · have hne : b' ≠ b := by omega
      exact (Function.update_of_ne hne ..).trans (hs.reserved b' hb')
  refine does_own (c := ⟨⟩) (Z := fun _ => Held p j i d₀ d (Function.update f slot 0) a)
    hon hs hinum ?_ hown
    ⟨⟨hinum, hcopy, hvalid, hd₀, hdisk, hhand, fun slot' => ?_⟩, fun htable => ?_⟩
  · simp only [hmark]
    rfl
  · by_cases hslot' : slot' = slot
    · rw [hslot', Function.update_self]
      exact Function.update_self ..
    · rw [Function.update_of_ne hslot', ← hplace]
      exact Function.update_of_ne (fun heq => hslot' (Prod.mk.inj heq).2) ..
  · by_cases hslot' : .table = slot
    · rw [← hslot', Function.update_self] at htable
      exact absurd rfl htable
    · rw [Function.update_of_ne hslot'] at htable ⊢
      exact hon.own.table htable

omit [DecidableEq P] in
/-- A field of the inode is set. -/
theorem spec_setinode_held (g : Dinode → Dinode) :
    Spec P sb p (On p l j (Held p j i d₀ d f a)) (setinode j g)
      fun _ => On p l j (Held p j i d₀ (g d) f a) := by
  refine spec_own keptBy_held (fun s h => h.holding.inum) fun s hs hlock h => ?_
  obtain ⟨hinum, hcopy, hvalid, hd₀, hdisk, hhand, hplace⟩ := h.holding
  refine ⟨_, Own.of_contents hlock hinum (fun _ _ _ => rfl) (fun _ _ => rfl) hs.marked hs.reserved,
    ⟨?_, ?_, ?_, hd₀, hdisk, hhand, hplace⟩, h.table⟩
  · dsimp only
    rw [setEntry_self, hinum]
  · dsimp only
    rw [setEntry_self, hcopy]
  · dsimp only
    rw [setEntry_self, hvalid]

omit [DecidableEq P] in
theorem spec_getinode_held :
    Spec P sb p (On p l j (Held p j i d₀ d f a)) (getinode j)
      fun e s => e.toDinode = d ∧ On p l j (Held p j i d₀ d f a) s :=
  (spec_getinode (stable_on keptBy_held)).mono fun e s _ ⟨h, he⟩ =>
    ⟨by rw [he, h.own.holding.copy], h⟩

/-! ## The direct blocks -/

/-- Those in `rest` are still there. -/
structure Direct (d : Dinode) (f : Files.Slot → ℕ) (a : Files.Block) (rest : List ℕ) : Prop where
  type : d.type ≠ 0
  addr : ∀ k ≤ NDIRECT, f (slotOf k) = d.addrs k
  done : ∀ k < NDIRECT, k ∉ rest → d.addrs k = 0
  entry : ∀ bn (hlt : bn < MAXFILE), NDIRECT ≤ bn →
    f (.data ⟨bn, hlt⟩) = if f .table = 0 then 0 else word a (bn - NDIRECT)

theorem slotOf_table : slotOf NDIRECT = .table := dif_neg (lt_irrefl _)

theorem slotOf_data {k : ℕ} (hk : k < NDIRECT) :
    slotOf k = .data ⟨k, Nat.lt_trans hk (by decide)⟩ := dif_pos hk

theorem slotOf_inj {k k' : ℕ} (hk : k ≤ NDIRECT) (hk' : k' ≤ NDIRECT) (h : slotOf k = slotOf k') :
    k = k' := by
  unfold slotOf at h
  split at h <;> split at h
  · exact Fin.mk.inj (Files.Slot.data.inj h)
  · cases h
  · cases h
  · omega

theorem Direct.next {k : ℕ} (h : Direct d f a (k :: rest)) (hk : k < NDIRECT) :
    Direct (d.setAddr k 0) (Function.update f (slotOf k) 0) a rest where
  type := h.type
  addr k' hk' := by
    by_cases heq : k' = k
    · rw [heq, Function.update_self, setAddr_self]
    · have hne : slotOf k' ≠ slotOf k := fun hslot => heq (slotOf_inj hk' hk.le hslot)
      rw [Function.update_of_ne hne, setAddr_of_ne _ _ heq, h.addr k' hk']
  done k' hk' hmem := by
    by_cases heq : k' = k
    · rw [heq, setAddr_self]
    · rw [setAddr_of_ne _ _ heq]
      exact h.done k' hk' (by simp [heq, hmem])
  entry bn hlt hle := by
    have hdata : Files.Slot.data ⟨bn, hlt⟩ ≠ slotOf k := by
      rw [slotOf_data hk]
      simp only [ne_eq, Files.Slot.data.injEq, Fin.mk.injEq]
      omega
    have htable : Files.Slot.table ≠ slotOf k := by
      rw [slotOf_data hk]
      simp
    rw [Function.update_of_ne hdata, Function.update_of_ne htable, h.entry bn hlt hle]

/-- There has been no block. -/
theorem Direct.skip {k : ℕ} (h : Direct d f a (k :: rest)) (hzero : d.addrs k = 0) :
    Direct d f a rest where
  type := h.type
  addr := h.addr
  done k' hk' hmem := by
    by_cases heq : k' = k
    · rw [heq, hzero]
    · exact h.done k' hk' (by simp [heq, hmem])
  entry := h.entry

theorem spec_freeDirect {k : ℕ} (h : Direct d f a (k :: rest)) (hk : k < NDIRECT) :
    Spec P sb p (On p l j (Held p j i d₀ d f a)) (freeDirect j k) fun _ s =>
      ∃ d f, Direct d f a rest ∧ On p l j (Held p j i d₀ d f a) s := by
  refine spec_getinode_held.bind fun e => Logic.meets_and fun he => ?_
  subst he
  have hslot := h.addr k hk.le
  dsimp only
  by_cases hzero : e.addrs k = 0
  · rw [if_neg (not_not.mpr hzero)]
    exact Logic.Meets.of_imp Logic.meets_pure fun s _ hs => ⟨_, _, h.skip hzero, hs⟩
  · rw [if_pos hzero]
    refine (spec_bfree hslot hzero).bind fun _ => (spec_setinode_held _).mono fun _ s _ hs => ?_
    exact ⟨_, _, h.next hk, hs⟩

theorem spec_freeDirects (h : Direct d f a (List.range NDIRECT)) :
    Spec P sb p (On p l j (Held p j i d₀ d f a)) ((List.range NDIRECT).forM (freeDirect j))
      fun _ s => ∃ d f, Direct d f a [] ∧ On p l j (Held p j i d₀ d f a) s := by
  refine Logic.Meets.of_imp (Logic.meets_forM (I := fun rest s => ∃ d f, Direct d f a rest ∧
    On p l j (Held p j i d₀ d f a) s) fun k rest hsuffix => ?_) fun s _ hs => ⟨d, f, h, hs⟩
  have hk : k < NDIRECT := List.mem_range.mp (hsuffix.subset (List.mem_cons_self ..))
  exact Logic.meets_exists fun d => Logic.meets_exists fun f => Logic.meets_and fun h =>
    spec_freeDirect h hk

/-! ## The indirect block -/

/-- The blocks with the entries in `rest` of the indirect block are still there. -/
structure Indirect (f : Files.Slot → ℕ) (a : Files.Block) (table : ℕ) (rest : List ℕ) : Prop where
  table : f .table = table
  direct : ∀ k < NDIRECT, f (slotOf k) = 0
  entry : ∀ bn (hlt : bn < MAXFILE), NDIRECT ≤ bn →
    f (.data ⟨bn, hlt⟩) = if bn - NDIRECT ∈ rest then word a (bn - NDIRECT) else 0

theorem Direct.indirect (h : Direct d f a []) (hpos : d.addrs NDIRECT ≠ 0) :
    Indirect f a (d.addrs NDIRECT) (List.range NINDIRECT) where
  table := by rw [← slotOf_table, h.addr _ le_rfl]
  direct k hk := by rw [h.addr k hk.le, h.done k hk (List.not_mem_nil)]
  entry bn hlt hle := by
    have htable : f .table ≠ 0 := by rwa [← slotOf_table, h.addr _ le_rfl]
    have hmem : bn - NDIRECT ∈ List.range NINDIRECT := by
      rw [List.mem_range]
      unfold MAXFILE at hlt
      omega
    rw [h.entry bn hlt hle, if_neg htable, if_pos hmem]

/-- One block is given back, if there has been one. -/
theorem Indirect.next {k table : ℕ} (h : Indirect f a table (k :: rest)) (hk : k < NINDIRECT)
    (hnot : k ∉ rest) : ∃ hlt : NDIRECT + k < MAXFILE,
      f (.data ⟨NDIRECT + k, hlt⟩) = word a k ∧
      Indirect (Function.update f (.data ⟨NDIRECT + k, hlt⟩) 0) a table rest := by
  have hlt : NDIRECT + k < MAXFILE := by
    unfold MAXFILE
    omega
  refine ⟨hlt, ?_, ?_, fun k' hk' => ?_, fun bn hlt' hle => ?_⟩
  · rw [h.entry _ hlt (by omega), Nat.add_sub_cancel_left, if_pos (List.mem_cons_self ..)]
  · rw [Function.update_of_ne (by simp), h.table]
  · rw [Function.update_of_ne _, h.direct k' hk']
    rw [slotOf_data hk']
    simp only [ne_eq, Files.Slot.data.injEq, Fin.mk.injEq]
    omega
  · by_cases hbn : bn = NDIRECT + k
    · subst hbn
      rw [Function.update_self, Nat.add_sub_cancel_left, if_neg hnot]
    · have hne : bn - NDIRECT ≠ k := by omega
      rw [Function.update_of_ne (by simpa using hbn), h.entry bn hlt' hle]
      simp only [List.mem_cons, hne, false_or]

theorem spec_freeEntry {k table : ℕ} (h : Indirect f a table (k :: rest)) (hk : k < NINDIRECT)
    (hnot : k ∉ rest) :
    Spec P sb p (On p l j (Held p j i d₀ d f a)) (freeEntry a k) fun _ s =>
      ∃ f, Indirect f a table rest ∧ On p l j (Held p j i d₀ d f a) s := by
  obtain ⟨hlt, hword, hnext⟩ := h.next hk hnot
  rw [freeEntry]
  by_cases hzero : word a k = 0
  · have hsame : Function.update f (.data ⟨NDIRECT + k, hlt⟩) 0 = f := by
      rw [Function.update_eq_self_iff, hword, hzero]
    rw [hsame] at hnext
    rw [if_neg (not_not.mpr hzero)]
    exact Logic.Meets.of_imp Logic.meets_pure fun s _ hs => ⟨_, hnext, hs⟩
  · rw [if_pos hzero]
    exact (spec_bfree hword hzero).mono fun _ s _ hs => ⟨_, hnext, hs⟩

theorem spec_freeEntries {table : ℕ} (h : Indirect f a table (List.range NINDIRECT)) :
    Spec P sb p (On p l j (Held p j i d₀ d f a)) ((List.range NINDIRECT).forM (freeEntry a))
      fun _ s => ∃ f, Indirect f a table [] ∧ On p l j (Held p j i d₀ d f a) s := by
  refine Logic.Meets.of_imp (Logic.meets_forM (I := fun rest s => ∃ f, Indirect f a table rest ∧
    On p l j (Held p j i d₀ d f a) s) fun k rest hsuffix => ?_) fun s _ hs => ⟨f, h, hs⟩
  have hk : k < NINDIRECT := List.mem_range.mp (hsuffix.subset (List.mem_cons_self ..))
  have hnot : k ∉ rest :=
    (List.nodup_cons.mp (List.Nodup.sublist hsuffix.sublist List.nodup_range)).1
  exact Logic.meets_exists fun f => Logic.meets_and fun h => spec_freeEntry h hk hnot

/-! ## `itrunc` -/

/-- The inode has no block and no address. -/
structure Bare (d : Dinode) (f : Files.Slot → ℕ) : Prop where
  type : d.type ≠ 0
  addrs : ∀ k ≤ NDIRECT, d.addrs k = 0
  none : ∀ slot, f slot = 0

theorem Direct.bare (h : Direct d f a []) (hzero : d.addrs NDIRECT = 0) : Bare d f where
  type := h.type
  addrs k hk := by
    by_cases heq : k = NDIRECT
    · rw [heq, hzero]
    · exact h.done k (by omega) (List.not_mem_nil)
  none slot := by
    have htable : f .table = 0 := by rw [← slotOf_table, h.addr _ le_rfl, hzero]
    cases slot with
    | table => exact htable
    | data bn =>
        by_cases hdirect : bn.1 < NDIRECT
        · have haddr := h.addr bn.1 hdirect.le
          rw [slotOf_data hdirect, h.done _ hdirect (List.not_mem_nil)] at haddr
          exact haddr
        · rw [h.entry bn.1 bn.2 (by omega), if_pos htable]

theorem Indirect.bare {table : ℕ} {f' : Files.Slot → ℕ} (h : Direct d f' a [])
    (h' : Indirect f a table []) :
    Bare (d.setAddr NDIRECT 0) (Function.update f .table 0) where
  type := h.type
  addrs k hk := by
    by_cases heq : k = NDIRECT
    · rw [heq, setAddr_self]
    · rw [setAddr_of_ne _ _ heq]
      exact h.done k (by omega) (List.not_mem_nil)
  none slot := by
    cases slot with
    | table => exact Function.update_self ..
    | data bn =>
        rw [Function.update_of_ne (by simp)]
        by_cases hdirect : bn.1 < NDIRECT
        · have haddr := h'.direct bn.1 hdirect
          rwa [slotOf_data hdirect] at haddr
        · rw [h'.entry bn.1 bn.2 (by omega), if_neg (List.not_mem_nil)]

omit [Fintype P] [DecidableEq P] in
theorem Direct.start (h : Open p j i d₀ d b f s) (ha : s.1.disk.block (f .table) = a) :
    Direct d f a (List.range NDIRECT) where
  type := h.type
  addr k hk := by rw [← h.addrOf_eq, slot_slotOf _ hk h.type]
  done k hk hmem := absurd (List.mem_range.mpr hk) hmem
  entry bn hlt hle := by
    have htable : d.addrs NDIRECT = f .table := by
      rw [← h.addrOf_eq, addrOf_of_type h.type]
      rfl
    rw [← h.addrOf_eq, addrOf_of_type h.type]
    split
    · rename_i hzero
      exact addr_no_table hle (htable.trans hzero)
    · rename_i hpos
      refine (addr_indirect hle (by rwa [htable])).trans ?_
      rw [htable, ha]

theorem Bare.addrOf_eq (h : Bare d f) (block : ℕ → Files.Block) : addrOf d block slot = 0 := by
  rw [addrOf_of_type h.type]
  cases slot with
  | table => exact h.addrs NDIRECT le_rfl
  | data bn =>
      by_cases hdirect : bn.1 < NDIRECT
      · exact (addr_direct hdirect).trans (h.addrs _ hdirect.le)
      · exact addr_no_table (by omega) (h.addrs NDIRECT le_rfl)

omit [Fintype P] [DecidableEq P] in
theorem Held.open (h : Held p j i d₀ d f a s) (hbare : Bare d f) : Open p j i d₀ d 0 f s :=
  ⟨h.holding, hbare.type, fun slot => by rw [h.holding.place, hbare.none, hbare.addrOf_eq]⟩

theorem spec_itrunc :
    Spec P sb p (On p l j (Open p j i d d 0 f)) (itrunc j) fun _ s =>
      ∃ d f, d.size = 0 ∧ (∀ slot, f slot = 0) ∧ On p l j (Open p j i d d 0 f) s := by
  refine Logic.Meets.of_imp (A := fun s => ∃ a, Direct d f a (List.range NDIRECT) ∧
    On p l j (Held p j i d d f a) s) ?_ fun s _ hs =>
      ⟨_, Direct.start hs.own rfl, hs.imp fun h => ⟨h.holding, fun _ => rfl⟩⟩
  refine Logic.meets_exists fun a => Logic.meets_and fun h => (spec_freeDirects h).bind fun _ =>
    Logic.meets_exists fun d₁ => Logic.meets_exists fun f₁ => Logic.meets_and fun h₁ =>
      spec_getinode_held.bind fun e => Logic.meets_and fun he => ?_
  subst he
  have hlast : ∀ d₂ f₂, Bare d₂ f₂ → Spec P sb p (On p l j (Held p j i d d₂ f₂ a)) (do
      setinode j fun d => { d with size := 0 }
      iupdate j) fun _ s =>
      ∃ d f, d.size = 0 ∧ (∀ slot, f slot = 0) ∧ On p l j (Open p j i d d 0 f) s :=
    fun d₂ f₂ hbare => Logic.Meets.of_imp
      ((spec_setinode (g := fun d => { d with size := 0 }) rfl rfl).bind fun _ =>
        spec_iupdate.mono fun _ s _ hs => ⟨_, _, rfl, hbare.none, hs⟩)
      fun s _ hs => hs.imp fun hheld => hheld.open hbare
  dsimp only
  by_cases htable : e.addrs NDIRECT = 0
  · rw [if_neg (not_not.mpr htable)]
    exact hlast _ _ (h₁.bare htable)
  rw [if_pos htable]
  have hslot : f₁ .table = e.addrs NDIRECT := by rw [← slotOf_table, h₁.addr _ le_rfl]
  refine Logic.Meets.bind (Q := fun a' s => a' = a ∧ On p l j (Held p j i d e.toDinode f₁ a) s)
    ((spec_read (stable_on keptBy_held)).mono fun a' s _ ⟨hs, ha⟩ => ⟨?_, hs⟩)
    fun a' => Logic.meets_and fun ha => ?_
  · rw [ha, ← hslot]
    exact hs.own.table (by rwa [hslot])
  subst ha
  exact (spec_freeEntries (h₁.indirect htable)).bind fun _ => Logic.meets_exists fun f₂ =>
    Logic.meets_and fun h₂ => (spec_bfree h₂.table htable).bind fun _ =>
      (spec_setinode_held _).bind fun _ => hlast _ _ (Indirect.bare h₁ h₂)

end Volume

end Xv6
