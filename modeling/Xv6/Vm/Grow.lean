import Xv6.Vm.Build

/-!
# Address spaces that grow

What `allocuvm` and `copyuvm` do.  Both allocate a page, fill it and map it, and undo
what they have done where an allocation fails: `allocuvm` by `deallocuvm`, which
leaves new page tables behind, and `copyuvm` by `freevm`.
-/

namespace Xv6.Vm

open Allocation Logic

variable {σ R G : Type} {L : Logic Frame Page σ R G} {lay : Layout}
variable {v v' v₁ v₂ v₃ : View Frame Page G} {d mem lo hi k : ℕ} {F : Multiset Frame}

/-! ## A page in hand -/

/-- The page `mem` has been allocated and filled. -/
structure NewPage (lay : Layout) (v v' : View Frame Page G) (mem : Frame) : Prop where
  owned : v'.owned = {mem} + v.owned
  new : mem ∉ v.owned
  arena : lay.Arena mem
  rest : ∀ p, p ≠ mem → v'.mem p = v.mem p
  ghost : v'.ghost = v.ghost
  failed : v'.failed = v.failed

theorem newPage {x fill : Page} (hmem : lay.Arena mem) (hnew : mem ∉ v.owned) :
    NewPage lay v { v with
      owned := mem ::ₘ v.owned
      mem := Function.update (Function.update v.mem mem x) mem fill } mem where
  owned := (Multiset.singleton_add mem _).symm
  new := hnew
  arena := hmem
  rest p hp := by simp [hp]
  ghost := rfl
  failed := rfl

/-- The address space is not concerned. -/
theorem holds_congr {F' : Multiset Frame} (howned : v'.owned = F' + space v.mem d)
    (hmem : ∀ p ∈ space v.mem d, v'.mem p = v.mem p) (hnodup : v'.owned.Nodup)
    (harena : ∀ p ∈ v'.owned, lay.Arena p) : Holds lay v' d F' where
  owned := by
    rw [howned, space_congr (hmem d dir_mem_space) fun p hp =>
      hmem p (mem_space.mpr (Or.inr (Or.inl hp)))]
  nodup := hnodup
  arena := harena

theorem Holds.newPage (hv : Holds lay v d F) (h : NewPage lay v v' mem) :
    Holds lay v' d ({mem} + F) := by
  refine holds_congr (by rw [h.owned, hv.owned, add_assoc]) (fun p hp => h.rest p ?_) ?_ ?_
  · rintro rfl
    exact h.new (Multiset.mem_of_le hv.space_le hp)
  · rw [h.owned, Multiset.singleton_add, Multiset.nodup_cons]
    exact ⟨h.new, hv.nodup⟩
  · intro p hp
    rw [h.owned, Multiset.singleton_add, Multiset.mem_cons] at hp
    exact hp.elim (fun heq => heq ▸ h.arena) (hv.arena p)

theorem Holds.kfree {word : ℕ} (hv : Holds lay v d ({mem} + F)) :
    Holds lay { v with
      owned := v.owned.erase mem
      mem := Function.update v.mem mem fun _ => word } d F := by
  have hfreed := freed_kfree (w := word) hv.nodup (hv.owned.trans (add_assoc _ _ _))
  refine holds_congr hfreed.owned (fun p hp => ?_) (hv.nodup.erase _) fun p hp => ?_
  · exact hfreed.data p (Multiset.mem_add.mpr (Or.inr hp))
  · exact hv.arena p (Multiset.mem_of_mem_erase hp)

/-! ## User pages that are added -/

/-- Pages have been mapped at the virtual pages from `lo` up to `hi`. -/
structure Grown (lay : Layout) (v v' : View Frame Page G) (d : Frame) (F : Multiset Frame)
    (lo hi : ℕ) : Prop where
  holds : Holds lay v' d F
  made : ∀ u, lo ≤ u → u < hi → present (pte v'.mem d u) = true
  others : ∀ u < pages, ¬(lo ≤ u ∧ u < hi) → pte v'.mem d u = pte v.mem d u
  dir : ∀ i, userPages / 1024 ≤ i → v'.mem d i = v.mem d i
  owned_le : v.owned ≤ v'.owned
  old : ∀ p ∈ v.owned, p ∈ tables v'.mem d → p ∈ tables v.mem d
  data : ∀ p ∈ v.owned, p ≠ d → p ∉ tables v.mem d → v'.mem p = v.mem p
  count : (users v'.mem d).card = (users v.mem d).card + (hi - lo)
  ghost : v'.ghost = v.ghost
  failed : v'.failed = v.failed

theorem Grown.refl (hv : Holds lay v d F) (hle : hi ≤ lo) : Grown lay v v d F lo hi where
  holds := hv
  made u hlo hhi := by omega
  others _ _ _ := rfl
  dir _ _ := rfl
  owned_le := le_rfl
  old _ _ hp := hp
  data _ _ _ _ := rfl
  count := by omega
  ghost := rfl
  failed := rfl

/-- One more page. -/
theorem Grown.add (h : Grown lay v v₁ d F lo k) (hnew : NewPage lay v₁ v₂ mem) {perm : ℕ}
    (hmap : Mapped lay v₂ v₃ d k (mem * PGSIZE ||| perm ||| PTE_P)) (hperm : perm < PGSIZE)
    (hlo : lo ≤ k) (hk : k < userPages) : Grown lay v v₃ d F lo (k + 1) := by
  have hv₂ := h.holds.newPage hnew
  have haddr : PTE_ADDR (mem * PGSIZE ||| perm ||| PTE_P) = mem := PTE_ADDR_pte hperm
  have hsame : ∀ p ∈ space v₁.mem d, v₂.mem p = v₁.mem p := fun p hp =>
    hnew.rest p fun heq => hnew.new (heq ▸ Multiset.mem_of_le h.holds.space_le hp)
  have htables : ∀ p ∈ tables v₁.mem d, v₂.mem p = v₁.mem p := fun p hp =>
    hsame p (mem_space.mpr (Or.inr (Or.inl hp)))
  have hd : v₂.mem d = v₁.mem d := hsame d dir_mem_space
  have hv₃ : Holds lay v₃ d F :=
    hmap.holds_user (by rw [haddr]; exact hv₂) hk (present_pte _ _)
  have hentries : ∀ u < pages, pte v₃.mem d u =
      if u = k then mem * PGSIZE ||| perm ||| PTE_P else pte v₁.mem d u := fun u hu => by
    rw [hmap.entries u hu, pte_congr hd htables hu]
  have hle : v₁.owned ≤ v₂.owned := by
    rw [hnew.owned]
    exact Multiset.le_add_left _ _
  have hold : ∀ p ∈ v₂.owned, p ∈ tables v₃.mem d → p ∈ tables v₁.mem d := by
    intro p hp htable
    obtain ⟨T, hT, howned⟩ := hmap.newTable
    have hnodup := hmap.nodup
    rw [howned, Multiset.nodup_add] at hnodup
    rw [hT, Multiset.mem_add, tables_congr hd] at htable
    exact htable.resolve_left fun hmem => Multiset.disjoint_left.mp hnodup.2.2 hmem hp
  refine ⟨hv₃, fun u hu hu' => ?_, fun u hu hout => ?_, fun i hi => ?_,
    h.owned_le.trans (hle.trans hmap.owned_le), fun p hp htable => ?_, fun p hp hpd htable => ?_,
    ?_, hmap.ghost.trans (hnew.ghost.trans h.ghost), hmap.failed.trans (hnew.failed.trans h.failed)⟩
  · rw [hentries u (by have := userPages_lt; omega)]
    by_cases heq : u = k
    · rw [if_pos heq, present_pte]
    · rw [if_neg heq]
      exact h.made u hu (by omega)
  · rw [hentries u hu, if_neg (by omega), h.others u hu (by omega)]
  · have hne : i ≠ k / 1024 := by
      unfold userPages at hi hk
      omega
    rw [hmap.dir i hne, hd, h.dir i hi]
  · have hp₁ := Multiset.mem_of_le h.owned_le hp
    exact h.old p hp (hold p (Multiset.mem_of_le hle hp₁) htable)
  · have hp₁ := Multiset.mem_of_le h.owned_le hp
    have hnot₁ : p ∉ tables v₁.mem d := fun hmem => htable (h.old p hp hmem)
    have hne : p ≠ mem := fun heq => hnew.new (heq ▸ hp₁)
    rw [hmap.data p (Multiset.mem_of_le hle hp₁) hpd (by rwa [tables_congr hd]), hnew.rest p hne,
      h.data p hp hpd htable]
  · have hchange : users v₃.mem d + entry (pte v₁.mem d k) = _ := users_change hk fun u hu hne => by
      rw [hentries u (hu.trans userPages_lt), if_neg hne]
    have hpage := hk.trans userPages_lt
    have habsent : present (pte v₁.mem d k) = false := by
      rw [← pte_congr hd htables hpage]
      exact hmap.absent
    rw [entry_of_absent habsent, add_zero, hentries k hpage, if_pos rfl,
      entry_of_present (present_pte _ _)] at hchange
    rw [hchange, Multiset.card_add, Multiset.card_singleton, h.count]
    omega

/-- A page is mapped.  The pages that were mapped before, and what is in them, stay. -/
theorem Grown.mapped (h : Grown lay v v₁ d F lo k) (hnew : NewPage lay v₁ v₂ mem) {word : ℕ}
    (hmap : Mapped lay v₂ v₃ d k word) (hk : k < userPages) :
    pte v₃.mem d k = word ∧ v₃.mem mem = v₂.mem mem ∧
      ∀ u, lo ≤ u → u < k → pte v₃.mem d u = pte v₁.mem d u ∧
        v₃.mem (PTE_ADDR (pte v₁.mem d u)) = v₁.mem (PTE_ADDR (pte v₁.mem d u)) := by
  have hold := h.holds
  have hne : ∀ p ∈ v₁.owned, p ≠ mem := fun p hp heq => hnew.new (heq ▸ hp)
  have hspace : ∀ p ∈ space v₁.mem d, v₂.mem p = v₁.mem p := fun p hp =>
    hnew.rest p (hne p (Multiset.mem_of_le hold.space_le hp))
  have htables : ∀ p ∈ tables v₁.mem d, v₂.mem p = v₁.mem p := fun p hp =>
    hspace p (mem_space.mpr (Or.inr (Or.inl hp)))
  have hd := hspace d dir_mem_space
  have hkeep : ∀ p ∈ v₂.owned, p ≠ d → p ∉ tables v₁.mem d → v₃.mem p = v₂.mem p :=
    fun p hp hpd hpt => hmap.data p hp hpd (by rwa [tables_congr hd])
  refine ⟨?_, hkeep mem (by simp [hnew.owned]) ?_ ?_, fun u hlo hhi => ?_⟩
  · rw [hmap.entries k (hk.trans userPages_lt), if_pos rfl]
  · exact fun hdir => hne d hold.dir_mem hdir.symm
  · exact fun htable => hnew.new (Multiset.mem_of_le hold.space_le
      (mem_space.mpr (Or.inr (Or.inl htable))))
  · have hu : u < userPages := hhi.trans hk
    have hmem := mem_users hu (h.made u hlo hhi)
    obtain ⟨hpd, hpt⟩ := user_notMem hold.space_nodup hmem
    have howned : PTE_ADDR (pte v₁.mem d u) ∈ v₁.owned :=
      Multiset.mem_of_le hold.space_le (mem_space.mpr (Or.inr (Or.inr hmem)))
    constructor
    · rw [hmap.entries u (hu.trans userPages_lt), if_neg hhi.ne,
        pte_congr hd htables (hu.trans userPages_lt)]
    · rw [hkeep _ (by simp [hnew.owned, howned]) hpd hpt, hnew.rest _ (hne _ howned)]

/-- The pages from `lo` up to `hi` are user pages full of zeros. -/
def Zeroed (m : Frame → Page) (d : Frame) (lo hi : ℕ) : Prop :=
  ∀ u, lo ≤ u → u < hi → user (pte m d u) = true ∧ m (PTE_ADDR (pte m d u)) = fun _ => 0

theorem Zeroed.refl {m : Frame → Page} (hle : hi ≤ lo) : Zeroed m d lo hi := by
  intro u hlo hhi
  omega

/-- One more page. -/
theorem Zeroed.add (h : Zeroed v₁.mem d lo k) (hgrown : Grown lay v v₁ d F lo k)
    (hnew : NewPage lay v₁ v₂ mem) (hfill : v₂.mem mem = fun _ => 0) {word : ℕ}
    (hmap : Mapped lay v₂ v₃ d k word) (hword : PTE_ADDR word = mem) (huser : user word = true)
    (hk : k < userPages) : Zeroed v₃.mem d lo (k + 1) := by
  obtain ⟨hentry, hpage, hrest⟩ := hgrown.mapped hnew hmap hk
  intro u hlo hhi
  by_cases heq : u = k
  · rw [heq, hentry, hword, hpage]
    exact ⟨huser, hfill⟩
  · obtain ⟨hsame, hdata⟩ := hrest u hlo (by omega)
    rw [hsame, hdata]
    exact h u hlo (by omega)

/-! ## `allocuvm` -/

/-- The word that maps a page, if it is mapped. -/
def mapping (m : Frame → Page) (d : Frame) (u : ℕ) : Option ℕ :=
  if present (pte m d u) then some (pte m d u) else none

theorem mapping_of_absent {m : Frame → Page} {u : ℕ} (h : present (pte m d u) = false) :
    mapping m d u = none := by
  simp [mapping, h]

theorem entry_eq_of_mapping {m m' : Frame → Page} {u : ℕ} (h : mapping m' d u = mapping m d u) :
    entry (pte m' d u) = entry (pte m d u) := by
  unfold mapping at h
  unfold entry
  split at h <;> split at h <;> simp_all

/-- The user pages are as they were.  There may be new page tables. -/
structure Undone (lay : Layout) (v v' : View Frame Page G) (d : Frame) (F : Multiset Frame) :
    Prop where
  holds : Holds lay v' d F
  mapping : ∀ u < pages, mapping v'.mem d u = mapping v.mem d u
  dir : ∀ i, userPages / 1024 ≤ i → v'.mem d i = v.mem d i
  data : ∀ p ∈ F + users v.mem d, v'.mem p = v.mem p
  ghost : v'.ghost = v.ghost
  failed : v'.failed = true

/-- The pages from `lo` up to `hi` that have been added are taken away again. -/
theorem Grown.undo {F' : Multiset Frame} (hv : Holds lay v d F) (h : Grown lay v v₁ d F lo k)
    (hundo : Unmapped lay v₂ v' d F' lo hi) (hk : k ≤ hi)
    (hdir : v₂.mem d = v₁.mem d) (hmem : ∀ p ∈ v₁.owned, v₂.mem p = v₁.mem p)
    (hF' : F ≤ F') (habsent : ∀ u, lo ≤ u → u < hi → present (pte v.mem d u) = false) :
    (∀ u < pages, mapping v'.mem d u = mapping v.mem d u) ∧
      ∀ p ∈ F + users v.mem d, v'.mem p = v.mem p := by
  have htables : ∀ p ∈ tables v₁.mem d, v₂.mem p = v₁.mem p := fun p hp =>
    hmem p (Multiset.mem_of_le h.holds.space_le (mem_space.mpr (Or.inr (Or.inl hp))))
  have hentries : ∀ u < pages, mapping v'.mem d u = mapping v.mem d u := by
    intro u hu
    have hentry := hundo.entries u hu
    rw [pte_congr hdir htables hu] at hentry
    by_cases hin : lo ≤ u ∧ u < hi
    · have hgone : present (pte v'.mem d u) = false := by
        rw [hentry]
        by_cases hpresent : present (pte v₁.mem d u) = true
        · rw [if_pos ⟨hin.1, hin.2, hpresent⟩, present_zero]
        · rw [if_neg fun h => hpresent h.2.2]
          simpa using hpresent
      rw [mapping_of_absent hgone, mapping_of_absent (habsent u hin.1 hin.2)]
    · rw [if_neg fun h => hin ⟨h.1, h.2.1⟩, h.others u hu (by omega)] at hentry
      rw [mapping, mapping, hentry]
  refine ⟨hentries, fun p hp => ?_⟩
  have husers : users v'.mem d = users v.mem d := by
    rw [users, users]
    exact Finset.sum_congr rfl fun u hu =>
      entry_eq_of_mapping (hentries u ((Finset.mem_range.mp hu).trans userPages_lt))
  have howned : p ∈ v.owned := by
    rw [hv.owned, space]
    rcases Multiset.mem_add.mp hp with hp | hp <;> simp [hp]
  have hnot : p ≠ d ∧ p ∉ tables v.mem d := by
    rcases Multiset.mem_add.mp hp with hp | hp
    · have hspace := hv.notMem_space hp
      exact ⟨fun heq => hspace (mem_space.mpr (Or.inl heq)),
        fun htable => hspace (mem_space.mpr (Or.inr (Or.inl htable)))⟩
    · exact user_notMem hv.space_nodup hp
  have howned₁ := Multiset.mem_of_le h.owned_le howned
  have hnot₂ : p ∉ tables v₂.mem d := by
    rw [tables_congr hdir]
    exact fun htable => hnot.2 (h.old p howned htable)
  have howned' : p ∈ v'.owned := by
    rw [hundo.holds.owned, space, husers]
    rcases Multiset.mem_add.mp hp with hp | hp
    · exact Multiset.mem_add.mpr (Or.inl (Multiset.mem_of_le hF' hp))
    · simp [hp]
  rw [hundo.data p howned' hnot₂, hmem p howned₁, h.data p howned hnot.1 hnot.2]

/-- The loop of `allocuvm` from page `k` on. -/
theorem safe_allocFrom {Q : ℕ → View Frame Page G → Prop} {oldsz newsz : ℕ}
    (hL : L.arena = lay.Arena) (hnew : newsz < KERNBASE) (hv : Holds lay v d F)
    (h : Grown lay v v₁ d F (npages oldsz) k) (hzeroed : Zeroed v₁.mem d (npages oldsz) k)
    (hlo : npages oldsz ≤ k) (hk : k ≤ npages newsz)
    (habsent : ∀ u, npages oldsz ≤ u → u < npages newsz → present (pte v.mem d u) = false)
    (hundone : ∀ v', L.enough ≤ F.card + ((users v.mem d).card +
      (npages newsz - npages oldsz)) + NPDENTRIES + 2 → Undone lay v v' d F → Q 0 v')
    (hgrown : ∀ v', Grown lay v v' d F (npages oldsz) (npages newsz) →
      Zeroed v'.mem d (npages oldsz) (npages newsz) → Q newsz v') :
    L.Safe (allocFrom lay d oldsz newsz (k * PGSIZE) : Call σ R _) Q v₁ := by
  induction hn : npages newsz - k generalizing k v₁ with
  | zero =>
      have heq : k = npages newsz := by omega
      rw [allocFrom, if_neg (by rw [← lt_npages]; omega)]
      exact hgrown v₁ (heq ▸ h) (heq ▸ hzeroed)
  | succ n ih =>
      have hlt : k < npages newsz := by omega
      have huser : k < userPages := hlt.trans_le (npages_le hnew.le)
      have hcard := h.holds.card_le
      rw [h.count] at hcard
      rw [allocFrom, if_pos (lt_npages.mp hlt)]
      rw [Comp.bind_eq, safe_bind, safe_kalloc]
      refine ⟨fun henough => ?_, fun mem x hmem hnotMem => ?_⟩
      · -- no page
        simp only [Comp.bind_eq, safe_bind, Comp.pure_eq, safe_ret]
        refine safe_deallocuvm hnew.le h.holds.failed fun v' hv' => hundone v' (by omega) ?_
        obtain ⟨hentries, hdata⟩ := h.undo hv hv' hk rfl (fun _ _ => rfl) le_rfl habsent
        exact ⟨hv'.holds, hentries, fun i hi => by rw [hv'.dir, h.dir i hi], hdata,
          hv'.ghost.trans h.ghost, hv'.failed⟩
      rw [hL] at hmem
      dsimp only
      rw [Comp.bind_eq, safe_bind, safe_memset, Comp.bind_eq, safe_bind]
      refine ⟨Multiset.mem_cons_self mem _, ?_⟩
      have hpage : NewPage lay v₁ { v₁ with
          owned := mem ::ₘ v₁.owned
          mem := Function.update (Function.update v₁.mem mem x) mem fun _ => 0 } mem :=
        newPage hmem hnotMem
      generalize hv₂ : View.mk _ _ _ _ = v₂ at hpage ⊢
      have hfill : v₂.mem mem = fun _ => 0 := by
        rw [← hv₂]
        exact Function.update_self _ _ _
      have hv₂ := h.holds.newPage hpage
      have hsame : ∀ p ∈ v₁.owned, v₂.mem p = v₁.mem p := fun p hp =>
        hpage.rest p fun heq => hnotMem (heq ▸ hp)
      have hd := hsame d h.holds.dir_mem
      have hadd : k * PGSIZE + PGSIZE = (k + 1) * PGSIZE := (Nat.add_one_mul k PGSIZE).symm
      refine safe_mappages hL hv₂ huser ?_ (fun henough => ?_) fun v₃ hv₃ => ?_
      · have htables : ∀ p ∈ tables v₁.mem d, v₂.mem p = v₁.mem p := fun p hp =>
          hsame p (Multiset.mem_of_le h.holds.space_le (mem_space.mpr (Or.inr (Or.inl hp))))
        have hpages := huser.trans userPages_lt
        rw [pte_congr hd htables hpages, h.others k hpages (by omega)]
        exact habsent k hlo hlt
      · -- no page for the page table
        rw [if_neg Bool.false_ne_true]
        simp only [Comp.bind_eq, safe_bind, Comp.pure_eq, safe_ret]
        have henough₁ : L.enough ≤ v₁.owned.card + 1 := by
          rwa [hpage.owned, Multiset.card_add, Multiset.card_singleton, add_comm] at henough
        refine safe_deallocuvm hnew.le hv₂.failed fun v' hv' => ?_
        have hmem' : mem ∈ v'.owned := by simp [hv'.holds.owned]
        refine safe_kfree hmem' (hv'.holds.arena mem hmem') (hundone _ (by omega) ?_)
        obtain ⟨hentries, hdata⟩ := h.undo hv hv' hk hd hsame (Multiset.le_add_left F _) habsent
        have hfreed := freed_kfree (w := 0x01010101) hv'.holds.nodup
          (hv'.holds.owned.trans (add_assoc _ _ _))
        have hrest : ∀ p ∈ F + space v'.mem d, _ := hfreed.data
        have hdir' := hrest d (by simp [dir_mem_space])
        have htables' : ∀ p ∈ tables v'.mem d, _ := fun p hp =>
          hrest p (Multiset.mem_add.mpr (Or.inr (mem_space.mpr (Or.inr (Or.inl hp)))))
        refine ⟨hv'.holds.kfree, fun u hu => ?_, fun i hi => ?_, fun p hp => ?_,
          hv'.ghost.trans (hpage.ghost.trans h.ghost), hv'.failed⟩
        · rw [← hentries u hu, mapping, mapping, pte_congr hdir' htables' hu]
        · rw [hdir', hv'.dir]
          exact (congrFun hd i).trans (h.dir i hi)
        · have hmem₂ : p ∈ v₁.owned := by
            refine Multiset.mem_of_le h.owned_le ?_
            rw [hv.owned, space]
            rcases Multiset.mem_add.mp hp with hp | hp <;> simp [hp]
          have hne : p ≠ mem := fun heq => hnotMem (heq ▸ hmem₂)
          rw [← hdata p hp]
          exact Function.update_of_ne hne _ _
      · rw [if_pos rfl, hadd]
        have hgrow := h.add hpage hv₃ (by decide) hlo huser
        have haddr : PTE_ADDR (mem * PGSIZE ||| (PTE_W ||| PTE_U) ||| PTE_P) = mem :=
          PTE_ADDR_pte (by decide)
        have hzero := hzeroed.add h hpage hfill hv₃ haddr (user_pte.trans (by decide)) huser
        exact ih hgrow hzero (by omega) (by omega) (by omega)

theorem safe_allocuvm {Q : ℕ → View Frame Page G → Prop} {oldsz newsz : ℕ}
    (hL : L.arena = lay.Arena) (hv : Holds lay v d F)
    (habsent : newsz < KERNBASE → ∀ u, npages oldsz ≤ u → u < npages newsz →
      present (pte v.mem d u) = false)
    (hbig : KERNBASE ≤ newsz → Q 0 v) (hless : newsz < oldsz → Q oldsz v)
    (hundone : ∀ v', L.enough ≤ F.card + ((users v.mem d).card +
      (npages newsz - npages oldsz)) + NPDENTRIES + 2 → Undone lay v v' d F → Q 0 v')
    (hgrown : newsz < KERNBASE → oldsz ≤ newsz → ∀ v',
      Grown lay v v' d F (npages oldsz) (npages newsz) →
      Zeroed v'.mem d (npages oldsz) (npages newsz) → Q newsz v') :
    L.Safe (allocuvm lay d oldsz newsz : Call σ R _) Q v := by
  rw [allocuvm]
  by_cases hnew : newsz ≥ KERNBASE
  · rw [if_pos hnew]
    exact hbig hnew
  rw [if_neg hnew]
  by_cases hlt : newsz < oldsz
  · rw [if_pos hlt]
    exact hless hlt
  rw [if_neg hlt]
  have hnew : newsz < KERNBASE := by omega
  have hle : oldsz ≤ newsz := by omega
  exact safe_allocFrom hL hnew hv (Grown.refl hv le_rfl) (Zeroed.refl le_rfl) le_rfl
    (npages_mono hle) (habsent hnew) hundone (hgrown hnew hle)

/-! ## `copyuvm` -/

theorem GaveUp.of_freed (h : Freed v₁ v' F) (hdata : ∀ p ∈ F, v₁.mem p = v.mem p)
    (hghost : v₁.ghost = v.ghost) (hfailed : v₁.failed = true) : GaveUp v v' F where
  owned := h.owned
  data p hp := (h.data p hp).trans (hdata p hp)
  ghost := h.ghost.trans hghost
  failed := h.failed.trans hfailed

/-- What the call had before it added pages is unchanged. -/
theorem Grown.keep (hv : Holds lay v d F) (h : Grown lay v v' d F lo hi) {p : Frame}
    (hp : p ∈ F) : v'.mem p = v.mem p := by
  have hnot := hv.notMem_space hp
  refine h.data p (by simp [hv.owned, hp]) (fun heq => ?_) fun htable => ?_
  · exact hnot (mem_space.mpr (Or.inl heq))
  · exact hnot (mem_space.mpr (Or.inr (Or.inl htable)))

/-- The pages below `k` have the flags and the contents of those of `pgdir` in `m`. -/
def PagesCopied (m : Frame → Page) (pgdir : Frame) (m' : Frame → Page) (d : Frame) (k : ℕ) : Prop :=
  ∀ u < k, present (pte m pgdir u) = true ∧
    PTE_FLAGS (pte m' d u) = PTE_FLAGS (pte m pgdir u) ∧
    m' (PTE_ADDR (pte m' d u)) = m (PTE_ADDR (pte m pgdir u))

theorem PagesCopied.zero {m m' : Frame → Page} {pgdir : Frame} : PagesCopied m pgdir m' d 0 := by
  intro u hu
  exact absurd hu (Nat.not_lt_zero u)

theorem PTE_FLAGS_or {v flags : ℕ} (hflags : flags < PGSIZE) :
    PTE_FLAGS (v * PGSIZE ||| flags) = flags := by
  have hpow : PGSIZE = 2 ^ 12 := rfl
  rw [hpow] at hflags
  rw [PTE_FLAGS, hpow, Nat.mul_comm, ← Nat.two_pow_add_eq_or_of_lt hflags, Nat.mul_add_mod,
    Nat.mod_eq_of_lt hflags]

/-- The flags of an entry that is present, with `PTE_P` again. -/
theorem PTE_FLAGS_pte {v word : ℕ} (hpresent : present word = true) :
    PTE_FLAGS (v * PGSIZE ||| PTE_FLAGS word ||| PTE_P) = PTE_FLAGS word := by
  have hlt : PTE_FLAGS word < PGSIZE := Nat.mod_lt _ (by decide)
  have hbit : PTE_FLAGS word ||| PTE_P = PTE_FLAGS word := by
    have hpow : PGSIZE = 2 ^ 12 := rfl
    apply Nat.eq_of_testBit_eq
    intro i
    rw [Nat.testBit_or, PTE_FLAGS, hpow, Nat.testBit_mod_two_pow]
    by_cases hi : i = 0
    · rw [hi, show word.testBit 0 = true from hpresent]
      rfl
    · have hone : PTE_P.testBit i = false := by
        rw [PTE_P, ← Bool.not_eq_true, Nat.testBit_one_eq_true_iff_self_eq_zero]
        exact hi
      rw [hone, Bool.or_false]
  rw [Nat.or_assoc, hbit, PTE_FLAGS_or hlt]

/-- One more page. -/
theorem PagesCopied.add {m : Frame → Page} {pgdir : Frame} (h : PagesCopied m pgdir v₁.mem d k)
    (hgrown : Grown lay v v₁ d F 0 k) (hnew : NewPage lay v₁ v₂ mem)
    (hfill : v₂.mem mem = m (PTE_ADDR (pte m pgdir k))) (hpresent : present (pte m pgdir k) = true)
    (hmap : Mapped lay v₂ v₃ d k (mem * PGSIZE ||| PTE_FLAGS (pte m pgdir k) ||| PTE_P))
    (hk : k < userPages) : PagesCopied m pgdir v₃.mem d (k + 1) := by
  obtain ⟨hentry, hpage, hrest⟩ := hgrown.mapped hnew hmap hk
  have hflags : PTE_FLAGS (pte m pgdir k) < PGSIZE := Nat.mod_lt _ (by decide)
  intro u hu
  by_cases heq : u = k
  · rw [heq, hentry, PTE_ADDR_pte hflags, PTE_FLAGS_pte hpresent, hpage]
    exact ⟨hpresent, rfl, hfill⟩
  · obtain ⟨hsame, hdata⟩ := hrest u (Nat.zero_le u) (by omega)
    rw [hsame, hdata]
    exact h u (by omega)

/-- The loop of `copyuvm` from page `k` on.  The address space that is copied is among the
pages `F`.  The loop panics if a page of it is missing. -/
theorem safe_copyFrom {Q : Option Frame → View Frame Page G → Prop} {pgdir sz : ℕ}
    (hL : L.arena = lay.Arena) (hv : Holds lay v d F) (hsz : sz ≤ KERNBASE)
    (hpgdir : ∀ p ∈ space v.mem pgdir, p ∈ F)
    (hpanic : ∀ u < npages sz, present (pte v.mem pgdir u) = false →
      ∀ v', v'.failed = v.failed → L.panics v')
    (habsent : ∀ u < npages sz, present (pte v.mem d u) = false)
    (h : Grown lay v v₁ d F 0 k) (hcopied : PagesCopied v.mem pgdir v₁.mem d k) (hk : k ≤ npages sz)
    (hnone : ∀ v', L.enough ≤ F.card + ((users v.mem d).card + npages sz) + NPDENTRIES + 1 →
      GaveUp v v' F → Q none v')
    (hsome : ∀ v', Grown lay v v' d F 0 (npages sz) →
      PagesCopied v.mem pgdir v'.mem d (npages sz) → Q (some d) v') :
    L.Safe (copyFrom lay pgdir sz d (k * PGSIZE) : Call σ R _) Q v₁ := by
  induction hn : npages sz - k generalizing k v₁ with
  | zero =>
      have heq : k = npages sz := by omega
      rw [copyFrom, if_neg (by rw [← lt_npages]; omega)]
      exact hsome v₁ (heq ▸ h) (heq ▸ hcopied)
  | succ n ih =>
      have hlt : k < npages sz := by omega
      have huser : k < userPages := hlt.trans_le (npages_le hsz)
      have hpages := huser.trans userPages_lt
      have hcancel : k * PGSIZE / PGSIZE = k := Nat.mul_div_cancel k (by decide)
      have hadd : k * PGSIZE + PGSIZE = (k + 1) * PGSIZE := (Nat.add_one_mul k PGSIZE).symm
      have hle : F ≤ v₁.owned := by
        rw [h.holds.owned]
        exact Multiset.le_add_right _ _
      -- the address space that is copied has not changed
      have hin : ∀ p ∈ space v.mem pgdir, p ∈ F ∧ v₁.mem p = v.mem p := fun p hp =>
        ⟨hpgdir p hp, h.keep hv (hpgdir p hp)⟩
      have hdir := hin pgdir dir_mem_space
      have hsame : pte v₁.mem pgdir k = pte v.mem pgdir k :=
        pte_congr hdir.2 (fun p hp => (hin p (mem_space.mpr (Or.inr (Or.inl hp)))).2) hpages
      have hcard := h.holds.card_le
      rw [h.count] at hcard
      rw [copyFrom, if_pos (lt_npages.mp hlt), Comp.bind_eq, safe_bind]
      refine safe_walkpgdir (Multiset.mem_of_le hle hdir.1) (fun hpde => ?_) fun hpde => ?_
      · rw [PDX_eq, hcancel, hdir.2] at hpde
        exact hpanic k hlt (by rw [pte_of_absent hpde, present_zero]) v₁ h.failed
      rw [PDX_eq, hcancel, hdir.2] at hpde
      have htable := hin _ (mem_space.mpr (Or.inr (Or.inl
        (mem_tables (div_lt_NPDENTRIES hpages) hpde))))
      rw [PDX_eq, PTX_eq, hcancel, hdir.2]
      dsimp only
      rw [Comp.bind_eq, safe_bind, safe_load]
      refine ⟨Multiset.mem_of_le hle htable.1, ?_⟩
      rw [htable.2, ← pte_of_present hpde]
      by_cases habs : present (pte v.mem pgdir k) = false
      · rw [if_neg (by rw [habs]; exact Bool.false_ne_true)]
        exact hpanic k hlt habs v₁ h.failed
      have hpte : present (pte v.mem pgdir k) = true := by simpa using habs
      have hpage := hin _ (mem_space.mpr (Or.inr (Or.inr (mem_users huser hpte))))
      rw [if_pos hpte, Comp.bind_eq, safe_bind, safe_kalloc]
      refine ⟨fun henough => ?_, fun mem x hmem hnotMem => ?_⟩
      · -- no page
        simp only [Comp.bind_eq, safe_bind, Comp.pure_eq, safe_ret]
        exact safe_freevm h.holds.failed fun v₂ hv₂ => hnone v₂ (by omega)
          (GaveUp.of_freed hv₂ (fun p hp => h.keep hv hp) h.ghost rfl)
      rw [hL] at hmem
      dsimp only
      rw [Comp.bind_eq, safe_bind, safe_memmove, Comp.bind_eq, safe_bind]
      refine ⟨Multiset.mem_cons_of_mem (Multiset.mem_of_le hle hpage.1),
        Multiset.mem_cons_self mem _, ?_⟩
      dsimp only
      generalize hfill : Function.update v₁.mem mem x (PTE_ADDR (pte v.mem pgdir k)) = fill
      have hnew : NewPage lay v₁ { v₁ with
          owned := mem ::ₘ v₁.owned
          mem := Function.update (Function.update v₁.mem mem x) mem fill } mem :=
        newPage hmem hnotMem
      have hfill₂ : fill = v.mem (PTE_ADDR (pte v.mem pgdir k)) := by
        have hne : PTE_ADDR (pte v.mem pgdir k) ≠ mem := fun heq =>
          hnotMem (heq ▸ Multiset.mem_of_le hle hpage.1)
        rw [← hfill, Function.update_of_ne hne, hpage.2]
      generalize hv₂ : View.mk _ _ _ _ = v₂ at hnew ⊢
      have hcontents : v₂.mem mem = v.mem (PTE_ADDR (pte v.mem pgdir k)) := by
        rw [← hfill₂, ← hv₂]
        exact Function.update_self _ _ _
      have hv₂ := h.holds.newPage hnew
      have hsame₂ : ∀ p ∈ v₁.owned, v₂.mem p = v₁.mem p := fun p hp =>
        hnew.rest p fun heq => hnotMem (heq ▸ hp)
      refine safe_mappages hL hv₂ huser ?_ (fun henough => ?_) fun v₃ hv₃ => ?_
      · have htables : ∀ p ∈ tables v₁.mem d, v₂.mem p = v₁.mem p := fun p hp =>
          hsame₂ p (Multiset.mem_of_le h.holds.space_le (mem_space.mpr (Or.inr (Or.inl hp))))
        rw [pte_congr (hsame₂ d h.holds.dir_mem) htables hpages, h.others k hpages (by omega)]
        exact habsent k hlt
      · -- no page for the page table
        rw [if_neg Bool.false_ne_true]
        simp only [Comp.bind_eq, safe_bind, Comp.pure_eq, safe_ret]
        have hmem₂ : mem ∈ v₂.owned := by simp [hnew.owned]
        rw [hnew.owned, Multiset.card_add, Multiset.card_singleton] at henough
        refine safe_kfree hmem₂ (hv₂.arena mem hmem₂) ?_
        refine safe_freevm hv₂.failed.kfree fun v' hv' => hnone v' (by omega)
          (GaveUp.of_freed hv' (fun p hp => ?_) (hnew.ghost.trans h.ghost) rfl)
        have hp₁ := Multiset.mem_of_le hle hp
        have hne : p ≠ mem := fun heq => hnotMem (heq ▸ hp₁)
        exact (Function.update_of_ne hne _ _).trans ((hsame₂ p hp₁).trans (h.keep hv hp))
      · rw [if_pos rfl, hadd]
        have hperm : PTE_FLAGS (pte v.mem pgdir k) < PGSIZE := Nat.mod_lt _ (by decide)
        have hnext := hcopied.add h hnew hcontents hpte hv₃ huser
        exact ih (h.add hnew hv₃ hperm (Nat.zero_le k) huser) hnext (by omega) (by omega)

/-- A new address space with the pages of `pgdir` below `n`.  The caller keeps `F`. -/
structure CopiedSpace (lay : Layout) (v v' : View Frame Page G) (pgdir d n : ℕ)
    (F : Multiset Frame) : Prop where
  holds : Holds lay v' d F
  made : ∀ u < n, present (pte v'.mem d u) = true
  absent : ∀ u, n ≤ u → u < userPages → present (pte v'.mem d u) = false
  copied : PagesCopied v.mem pgdir v'.mem d n
  kernel : KernelWords v'.mem d (kmap lay)
  gap : ∀ i, (KERNBASE + PHYSTOP) / 2 ^ 22 ≤ i → i < DEVSPACE / 2 ^ 22 →
    present (v'.mem d i) = false
  data : ∀ p ∈ F, v'.mem p = v.mem p
  ghost : v'.ghost = v.ghost
  failed : v'.failed = v.failed

/-- The caller owns the address space that is copied, and maybe other pages. -/
theorem safe_copyuvm_exact {Q : Option Frame → View Frame Page G → Prop} {pgdir sz : ℕ}
    (hL : L.arena = lay.Arena) (hnodup : v.owned.Nodup) (harena : ∀ p ∈ v.owned, lay.Arena p)
    (hsz : sz ≤ KERNBASE) (hpgdir : ∀ p ∈ space v.mem pgdir, p ∈ v.owned)
    (hpanic : ∀ u < npages sz, present (pte v.mem pgdir u) = false →
      ∀ v', v'.failed = v.failed → L.panics v')
    (hnone : ∀ v', L.enough ≤ v.owned.card + npages sz + NPDENTRIES + 1 →
      GaveUp v v' v.owned → Q none v')
    (hsome : ∀ d v', CopiedSpace lay v v' pgdir d (npages sz) v.owned → Q (some d) v') :
    L.Safe (copyuvm lay pgdir sz : Call σ R _) Q v := by
  rw [copyuvm, Comp.bind_eq, safe_bind]
  refine safe_setupkvm hL hnodup harena (fun v' _ hv' => hnone v' (by omega) hv')
    fun d v₁ hv₁ hwords => ?_
  have husers : users v₁.mem d = 0 :=
    Finset.sum_eq_zero fun u hu => entry_of_absent (hv₁.absent u (Finset.mem_range.mp hu))
  have hin : ∀ p ∈ space v.mem pgdir, v₁.mem p = v.mem p := fun p hp =>
    hv₁.data p (hpgdir p hp)
  have hdir := hin pgdir dir_mem_space
  have htables : ∀ p ∈ tables v.mem pgdir, v₁.mem p = v.mem p := fun p hp =>
    hin p (mem_space.mpr (Or.inr (Or.inl hp)))
  have huser : ∀ u < npages sz, u < userPages := fun u hu => hu.trans_le (npages_le hsz)
  have hzero : (0 : ℕ) = 0 * PGSIZE := (Nat.zero_mul _).symm
  dsimp only
  rw [hzero]
  refine safe_copyFrom hL hv₁.holds hsz (by rw [space_congr hdir htables]; exact hpgdir)
    (fun u hu habs v₂ hv₂ => ?_) (fun u hu => hv₁.absent u (huser u hu))
    (Grown.refl hv₁.holds le_rfl) PagesCopied.zero (Nat.zero_le _)
    (fun v' henough hv' => hnone v' (by rwa [husers, Multiset.card_zero, zero_add] at henough) ?_)
    fun v' hv' hcopied => hsome d v' ⟨hv'.holds, fun u hu => hv'.made u (Nat.zero_le u) hu,
      fun u hle hu => ?_, fun u hu => ?_, fun k hk u hu => ?_, fun i hlo hhi => ?_,
      fun p hp => (hv'.keep hv₁.holds hp).trans (hv₁.data p hp), hv'.ghost.trans hv₁.ghost,
      hv'.failed.trans hv₁.failed⟩
  · rw [pte_congr hdir htables ((huser u hu).trans userPages_lt)] at habs
    exact hpanic u hu habs v₂ (hv₂.trans hv₁.failed)
  · refine ⟨hv'.owned, fun p hp => ?_, hv'.ghost.trans hv₁.ghost, hv'.failed⟩
    rw [hv'.data p hp, hv₁.data p hp]
  · rw [hv'.others u (hu.trans userPages_lt) (by omega)]
    exact hv₁.absent u hu
  · have hpage := (huser u hu).trans userPages_lt
    have hsame := hcopied u hu
    rw [pte_congr hdir htables hpage] at hsame
    have hmem := mem_space.mpr (Or.inr (Or.inr (mem_users (huser u hu) hsame.1)))
    rwa [hin _ hmem] at hsame
  · have hgood := kmap_good hk
    have hpage : u < pages := hu.2.trans_le hgood.le
    have hkernel : userPages ≤ u := hgood.kernel.trans hu.1
    have hbelow := npages_le hsz
    rw [hv'.others u hpage (by omega)]
    exact hwords k hk u hu
  · have hkernel : userPages / 1024 ≤ i := by
      simp only [KERNBASE, PHYSTOP] at hlo
      unfold userPages
      omega
    rw [hv'.dir i hkernel]
    exact hv₁.kernel.gap i hlo hhi

/-- What `fork` uses of it. -/
theorem safe_copyuvm {Q : Option Frame → View Frame Page G → Prop} {pgdir sz : ℕ}
    (hL : L.arena = lay.Arena) (hnodup : v.owned.Nodup) (harena : ∀ p ∈ v.owned, lay.Arena p)
    (hsz : sz ≤ KERNBASE) (hpgdir : space v.mem pgdir ≤ v.owned)
    (hpanic : ∀ u < npages sz, present (pte v.mem pgdir u) = false →
      ∀ v', v'.failed = v.failed → L.panics v')
    (hnone : ∀ v', GaveUp v v' v.owned → Q none v')
    (hsome : ∀ d v', Holds lay v' d v.owned → (∀ p ∈ v.owned, v'.mem p = v.mem p) →
      v'.ghost = v.ghost → v'.failed = v.failed → Q (some d) v') :
    L.Safe (copyuvm lay pgdir sz : Call σ R _) Q v :=
  safe_copyuvm_exact hL hnodup harena hsz (fun _ hp => Multiset.mem_of_le hpgdir hp) hpanic
    (fun v' _ hv' => hnone v' hv') fun d v' hv' =>
      hsome d v' hv'.holds hv'.data hv'.ghost hv'.failed

end Xv6.Vm
