import Xv6.Vm.Rules
import Mathlib.Data.Set.Lattice

/-!
# New address spaces

What `mappages` and `setupkvm` do.  Where an allocation fails, `setupkvm` frees what
it has allocated.
-/

namespace Xv6.Vm

open Allocation Logic

variable {σ R G : Type} {L : Logic Frame Page σ R G} {lay : Layout}
variable {v v' v₁ : View Frame Page G} {d u : ℕ} {F : Multiset Frame} {S S' : Set ℕ}

/-! ## `mappages` -/

theorem mappages_eq {lo n pa perm : ℕ} (hn : 0 < n) (hle : lo + n ≤ pages) :
    (mappages d (lo * PGSIZE) (n * PGSIZE) pa perm : Call σ R _) =
      mapFrom d perm n (lo * PGSIZE) pa := by
  have hdown : PGROUNDDOWN (lo * PGSIZE) = lo * PGSIZE := by
    unfold PGROUNDDOWN PGSIZE
    omega
  have hcount : uint (PGROUNDDOWN (uint (lo * PGSIZE + n * PGSIZE + (2 ^ 32 - 1))) + 2 ^ 32 -
      lo * PGSIZE) / PGSIZE + 1 = n := by
    unfold pages at hle
    unfold PGROUNDDOWN uint PGSIZE
    omega
  simp only [mappages]
  rw [hdown, hcount]

/-- One page of the user half is mapped. -/
theorem safe_mappages {Q : Bool → View Frame Page G → Prop} {k pa perm : ℕ}
    (hL : L.arena = lay.Arena) (hv : Holds lay v d F) (hk : k < userPages)
    (habsent : present (pte v.mem d k) = false)
    (hnone : L.enough ≤ v.owned.card → Q false { v with failed := true })
    (hmapped : ∀ v', Mapped lay v v' d k (pa ||| perm ||| PTE_P) → Q true v') :
    L.Safe (mappages d (k * PGSIZE) PGSIZE pa perm : Call σ R _) Q v := by
  have hpage : k + 1 ≤ pages := hk.trans userPages_lt
  have hcancel : k * PGSIZE / PGSIZE = k := Nat.mul_div_cancel k (by decide)
  have heq : (mappages d (k * PGSIZE) (1 * PGSIZE) pa perm : Call σ R Bool) = _ :=
    mappages_eq Nat.one_pos hpage
  rw [Nat.one_mul] at heq
  rw [heq]
  have hlt : k * PGSIZE < 2 ^ 32 := by
    unfold pages at hpage
    unfold PGSIZE
    omega
  refine safe_mapFrom hL hv hlt hnone (fun hpresent => ?_) fun v' hv' => ?_
  · rw [hcancel, habsent] at hpresent
    simp at hpresent
  · rw [hcancel] at hv'
    exact hmapped v' hv'

/-! ## The kernel half -/

/-- The entries of the pages `S` of the kernel half have been made; others have not
changed. -/
structure KernelMapped (lay : Layout) (v v' : View Frame Page G) (d : Frame)
    (F : Multiset Frame) (S : Set ℕ) : Prop where
  holds : Holds lay v' d F
  kernel : ∀ u ∈ S, userPages ≤ u
  made : ∀ u ∈ S, u < pages → present (pte v'.mem d u) = true ∧ user (pte v'.mem d u) = false
  others : ∀ u < pages, u ∉ S → pte v'.mem d u = pte v.mem d u
  dir : ∀ i, (∀ u ∈ S, u / 1024 ≠ i) → v'.mem d i = v.mem d i
  data : ∀ p ∈ F, v'.mem p = v.mem p
  ghost : v'.ghost = v.ghost
  failed : v'.failed = v.failed

namespace KernelMapped

theorem refl (hv : Holds lay v d F) : KernelMapped lay v v d F ∅ where
  holds := hv
  kernel _ hu := hu.elim
  made _ hu := hu.elim
  others _ _ _ := rfl
  dir _ _ := rfl
  data _ _ := rfl
  ghost := rfl
  failed := rfl

theorem trans (h : KernelMapped lay v v₁ d F S) (h' : KernelMapped lay v₁ v' d F S') :
    KernelMapped lay v v' d F (S ∪ S') where
  holds := h'.holds
  kernel u hu := hu.elim (h.kernel u) (h'.kernel u)
  made u hu hpage := by
    by_cases hS' : u ∈ S'
    · exact h'.made u hS' hpage
    · rw [h'.others u hpage hS']
      exact h.made u (hu.resolve_right hS') hpage
  others u hpage hu := by
    rw [h'.others u hpage fun hS' => hu (Or.inr hS'), h.others u hpage fun hS => hu (Or.inl hS)]
  dir i hi := by
    rw [h'.dir i fun u hu => hi u (Or.inr hu), h.dir i fun u hu => hi u (Or.inl hu)]
  data p hp := (h'.data p hp).trans (h.data p hp)
  ghost := h'.ghost.trans h.ghost
  failed := h'.failed.trans h.failed

theorem users_eq (h : KernelMapped lay v v' d F S) : users v'.mem d = users v.mem d :=
  users_congr fun u hu => h.others u (hu.trans userPages_lt) fun hS =>
    absurd (h.kernel u hS) (by omega)

end KernelMapped

theorem Mapped.kernelMapped {word : ℕ} (h : Mapped lay v v' d u word) (hv : Holds lay v d F)
    (hu : userPages ≤ u) (hpresent : present word = true) (huser : user word = false) :
    KernelMapped lay v v' d F {u} where
  holds := h.holds_kernel hv hu
  kernel u' hu' := by rwa [Set.mem_singleton_iff.mp hu']
  made u' hu' hpage := by
    rw [h.entries u' hpage, if_pos (Set.mem_singleton_iff.mp hu')]
    exact ⟨hpresent, huser⟩
  others u' hpage hu' := by
    rw [h.entries u' hpage, if_neg fun heq => hu' (Set.mem_singleton_iff.mpr heq)]
  dir i hi := h.dir i (hi u (Set.mem_singleton u)).symm
  data p hp := by
    have hnot := hv.notMem_space hp
    refine h.data p (by simp [hv.owned, hp]) (fun heq => ?_) fun htable => ?_
    · exact hnot (mem_space.mpr (Or.inl heq))
    · exact hnot (mem_space.mpr (Or.inr (Or.inl htable)))
  ghost := h.ghost
  failed := h.failed

theorem user_pte {j perm : ℕ} : user (j * PGSIZE ||| perm ||| PTE_P) = user perm := by
  have hmul : (j * PGSIZE).testBit 2 = false := by
    have hpow : PGSIZE = 2 ^ 12 := rfl
    rw [hpow, Nat.testBit_mul_two_pow]
    rfl
  have hpresent : Nat.testBit 1 2 = false := rfl
  simp [user, PTE_P, hmul, hpresent]

theorem range_zero (lo : ℕ) : {u | lo ≤ u ∧ u < lo + 0} = (∅ : Set ℕ) := by
  ext u
  simp

theorem range_succ (lo n : ℕ) :
    {lo} ∪ {u | lo + 1 ≤ u ∧ u < lo + 1 + n} = {u | lo ≤ u ∧ u < lo + (n + 1)} := by
  ext u
  simp only [Set.mem_union, Set.mem_singleton_iff, Set.mem_ofPred_eq]
  omega

/-- The loop of `mappages` in the kernel half. -/
theorem safe_mapFrom_kernel {Q : Bool → View Frame Page G → Prop} {perm n lo j : ℕ}
    (hL : L.arena = lay.Arena) (hv : Holds lay v d F) (hlo : userPages ≤ lo)
    (hle : lo + n ≤ pages) (hperm : user perm = false) (hj : j < 2 ^ 20)
    (habsent : ∀ u, lo ≤ u → u < lo + n → present (pte v.mem d u) = false)
    (hnone : ∀ v' S, KernelMapped lay v v' d F S → L.enough ≤ v'.owned.card →
      Q false { v' with failed := true })
    (hmapped : ∀ v', KernelMapped lay v v' d F {u | lo ≤ u ∧ u < lo + n} →
      (∀ u, lo ≤ u → u < lo + n →
        pte v'.mem d u = (j + (u - lo)) % 2 ^ 20 * PGSIZE ||| perm ||| PTE_P) → Q true v') :
    L.Safe (mapFrom d perm n (lo * PGSIZE) (j * PGSIZE) : Call σ R _) Q v := by
  induction n generalizing v lo j with
  | zero =>
      refine hmapped v ?_ fun u hlo' hu => by omega
      rw [range_zero]
      exact KernelMapped.refl hv
  | succ n ih =>
      have hcancel : lo * PGSIZE / PGSIZE = lo := Nat.mul_div_cancel lo (by decide)
      have hlt : lo * PGSIZE < 2 ^ 32 := by
        unfold pages at hle
        unfold PGSIZE
        omega
      refine safe_mapFrom hL hv hlt (hnone v ∅ (KernelMapped.refl hv)) (fun hpresent => ?_) ?_
      · rw [hcancel, habsent lo le_rfl (by omega)] at hpresent
        simp at hpresent
      rw [hcancel]
      intro v₁ hv₁
      have hstep := hv₁.kernelMapped hv hlo (present_pte _ _) (user_pte.trans hperm)
      have hpa : uint (j * PGSIZE + PGSIZE) = (j + 1) % 2 ^ 20 * PGSIZE := by
        unfold uint PGSIZE
        omega
      have hfirst : pte v₁.mem d lo =
          (j + (lo - lo)) % 2 ^ 20 * PGSIZE ||| perm ||| PTE_P := by
        rw [hv₁.entries lo (by omega), if_pos rfl, Nat.sub_self, Nat.add_zero,
          Nat.mod_eq_of_lt hj]
      by_cases hn : n = 0
      · subst hn
        refine hmapped v₁ ?_ fun u hlo' hu => ?_
        · rw [← range_succ, range_zero]
          exact hstep.trans (KernelMapped.refl hstep.holds)
        · rw [show u = lo by omega]
          exact hfirst
      have ha : uint (lo * PGSIZE + PGSIZE) = (lo + 1) * PGSIZE := by
        unfold pages at hle
        unfold uint PGSIZE
        omega
      rw [ha, hpa]
      refine ih hstep.holds (by omega) (by omega) (Nat.mod_lt _ (by decide))
        (fun u hlo' hu => ?_) (fun v' S hv' => ?_) fun v' hv' hwords => ?_
      · have hne : u ∉ ({lo} : Set ℕ) := fun heq => by
          rw [Set.mem_singleton_iff.mp heq] at hlo'
          omega
        rw [hstep.others u (by omega) hne]
        exact habsent u (by omega) (by omega)
      · exact hnone v' _ (hstep.trans hv')
      · refine hmapped v' ?_ fun u hlo' hu => ?_
        · rw [← range_succ]
          exact hstep.trans hv'
        · by_cases heq : u = lo
          · have hrest : lo ∉ {u | lo + 1 ≤ u ∧ u < lo + 1 + n} := fun h => absurd h.1 (by omega)
            rw [heq, hv'.others lo (by omega) hrest]
            exact hfirst
          · have hphys : ((j + 1) % 2 ^ 20 + (u - (lo + 1))) % 2 ^ 20 =
                (j + (u - lo)) % 2 ^ 20 := by omega
            rw [hwords u (by omega) (by omega), hphys]

/-! ## `setupkvm` -/

theorem card_tables (m : Frame → Page) (d : Frame) : (tables m d).card ≤ NPDENTRIES := by
  rw [tables, Multiset.card_sum]
  have hone : ∀ i ∈ Finset.range NPDENTRIES, (entry (m d i)).card ≤ 1 := fun i _ => by
    unfold entry
    split <;> simp
  calc ∑ i ∈ Finset.range NPDENTRIES, (entry (m d i)).card
      ≤ ∑ _ ∈ Finset.range NPDENTRIES, 1 := Finset.sum_le_sum hone
    _ = NPDENTRIES := by rw [← Finset.card_eq_sum_ones, Finset.card_range]

/-- How much an address space takes. -/
theorem Holds.card_le (hv : Holds lay v d F) :
    v.owned.card ≤ F.card + (users v.mem d).card + NPDENTRIES + 1 := by
  have htables := card_tables v.mem d
  rw [hv.owned, space, Multiset.card_add, Multiset.card_cons, Multiset.card_add]
  omega

namespace Kmap

def first (k : Kmap) : ℕ := k.virt / PGSIZE

def count (k : Kmap) : ℕ := uint (k.physEnd + 2 ^ 32 - k.physStart) / PGSIZE

/-- The virtual pages of a row. -/
def area (k : Kmap) : Set ℕ := {u | k.first ≤ u ∧ u < k.first + k.count}

/-- The word that maps the virtual page `u` of a row. -/
def word (k : Kmap) (u : ℕ) : ℕ :=
  (k.physStart / PGSIZE + (u - k.first)) % 2 ^ 20 * PGSIZE ||| k.perm ||| PTE_P

/-- A row of whole pages of the kernel half, not for users. -/
structure Good (k : Kmap) : Prop where
  virt : k.virt = k.first * PGSIZE
  size : uint (k.physEnd + 2 ^ 32 - k.physStart) = k.count * PGSIZE
  start : k.physStart = k.physStart / PGSIZE * PGSIZE
  perm : user k.perm = false
  pos : 0 < k.count
  kernel : userPages ≤ k.first
  le : k.first + k.count ≤ pages

end Kmap

/-- An allocation has failed, and what was allocated before has been freed. -/
structure GaveUp (v v' : View Frame Page G) (F : Multiset Frame) : Prop where
  owned : v'.owned = F
  data : ∀ p ∈ F, v'.mem p = v.mem p
  ghost : v'.ghost = v.ghost
  failed : v'.failed = true

/-- The rows `l` are mapped as they say. -/
def KernelWords (m : Frame → Page) (d : Frame) (l : List Kmap) : Prop :=
  ∀ k ∈ l, ∀ u ∈ k.area, pte m d u = k.word u

/-- The loop of `setupkvm`. -/
theorem safe_mapKernel {Q : Option Frame → View Frame Page G → Prop} {l : List Kmap}
    (hL : L.arena = lay.Arena) (hv : Holds lay v d F) (hgood : ∀ k ∈ l, k.Good)
    (hstart : ∀ k ∈ l, k.physStart / PGSIZE < 2 ^ 20)
    (hdisjoint : l.Pairwise fun k k' => ∀ u ∈ k'.area, u ∉ k.area)
    (habsent : ∀ k ∈ l, ∀ u ∈ k.area, present (pte v.mem d u) = false)
    (hnone : ∀ v', L.enough ≤ F.card + (users v.mem d).card + NPDENTRIES + 1 →
      GaveUp v v' F → Q none v')
    (hsome : ∀ v', KernelMapped lay v v' d F {u | ∃ k ∈ l, u ∈ k.area} →
      KernelWords v'.mem d l → Q (some d) v') :
    L.Safe (mapKernel lay d l : Call σ R _) Q v := by
  induction l generalizing v with
  | nil =>
      refine hsome v ?_ fun k hk => absurd hk List.not_mem_nil
      have hempty : {u | ∃ k ∈ ([] : List Kmap), u ∈ k.area} = (∅ : Set ℕ) := by simp
      rw [hempty]
      exact KernelMapped.refl hv
  | cons k rest ih =>
      have hk := hgood k List.mem_cons_self
      obtain ⟨hfirst, hrest⟩ := List.pairwise_cons.mp hdisjoint
      simp only [mapKernel, Comp.bind_eq, safe_bind]
      rw [hk.virt, hk.size, hk.start, mappages_eq hk.pos hk.le]
      refine safe_mapFrom_kernel hL hv hk.kernel hk.le hk.perm (hstart k List.mem_cons_self)
        (fun u hlo hhi => habsent k List.mem_cons_self u ⟨hlo, hhi⟩)
        (fun v₁ S hv₁ henough => ?_) fun v₁ hv₁ hwords => ?_
      · -- no page for a page table
        rw [if_neg Bool.false_ne_true]
        simp only [safe_bind, Comp.pure_eq, safe_ret]
        refine safe_freevm hv₁.holds.failed fun v₂ hv₂ => ?_
        have hcard := hv₁.holds.card_le
        rw [hv₁.users_eq] at hcard
        refine hnone v₂ (henough.trans hcard) ⟨hv₂.owned, fun p hp => ?_, ?_, ?_⟩
        · rw [hv₂.data p hp, hv₁.data p hp]
        · exact hv₂.ghost.trans hv₁.ghost
        · exact hv₂.failed
      · rw [if_pos rfl]
        have hunion : {u | ∃ k' ∈ k :: rest, u ∈ k'.area} =
            k.area ∪ {u | ∃ k' ∈ rest, u ∈ k'.area} := by
          ext u
          simp
        refine ih hv₁.holds (fun k' hk' => hgood k' (List.mem_cons_of_mem _ hk'))
          (fun k' hk' => hstart k' (List.mem_cons_of_mem _ hk')) hrest
          (fun k' hk' u hu => ?_) (fun v₂ henough hgave => ?_) fun v₂ hv₂ hwords₂ => ?_
        · have hpage : u < pages :=
            hu.2.trans_le (hgood k' (List.mem_cons_of_mem _ hk')).le
          rw [hv₁.others u hpage (hfirst k' hk' u hu)]
          exact habsent k' (List.mem_cons_of_mem _ hk') u hu
        · rw [hv₁.users_eq] at henough
          refine hnone v₂ henough
            ⟨hgave.owned, fun p hp => ?_, hgave.ghost.trans hv₁.ghost, hgave.failed⟩
          rw [hgave.data p hp, hv₁.data p hp]
        · refine hsome v₂ ?_ fun k' hk' u hu => ?_
          · rw [hunion]
            exact hv₁.trans hv₂
          · rcases List.mem_cons.mp hk' with rfl | hk'
            · -- the other rows have not changed it
              have hother : u ∉ {u | ∃ k'' ∈ rest, u ∈ k''.area} := fun hmem => by
                obtain ⟨k'', hk'', hu'⟩ := hmem
                exact hfirst k'' hk'' u hu' hu
              rw [hv₂.others u (hu.2.trans_le hk.le) hother]
              exact hwords u hu.1 hu.2
            · exact hwords₂ k' hk' u hu

/-- The virtual pages that every address space maps for the kernel. -/
def kernelPages : Set ℕ :=
  {u | KERNBASE / PGSIZE ≤ u ∧ u < (KERNBASE + PHYSTOP) / PGSIZE ∨
    DEVSPACE / PGSIZE ≤ u ∧ u < pages}

theorem Layout.dataPage_lt (lay : Layout) : 256 < lay.dataPage ∧ lay.dataPage < 57344 :=
  ⟨lay.text, lay.data_le.trans_lt lay.end_lt⟩

theorem uint_sub {lo hi : ℕ} (hle : lo ≤ hi) (hhi : hi < 2 ^ 32) :
    uint (hi + 2 ^ 32 - lo) = hi - lo := by
  rw [show hi + 2 ^ 32 - lo = hi - lo + 2 ^ 32 by omega, uint, Nat.add_mod_right,
    Nat.mod_eq_of_lt (by omega)]

theorem size_text : uint (lay.dataPage * PGSIZE + 2 ^ 32 - EXTMEM) =
    (lay.dataPage - 256) * PGSIZE := by
  obtain ⟨hlo, hhi⟩ := lay.dataPage_lt
  unfold PGSIZE EXTMEM
  rw [uint_sub (by omega) (by omega)]
  omega

theorem size_data : uint (PHYSTOP + 2 ^ 32 - lay.dataPage * PGSIZE) =
    (57344 - lay.dataPage) * PGSIZE := by
  obtain ⟨hlo, hhi⟩ := lay.dataPage_lt
  unfold PGSIZE PHYSTOP
  rw [uint_sub (by omega) (by omega)]
  omega

theorem kmap_good {k : Kmap} (hk : k ∈ kmap lay) : k.Good := by
  obtain ⟨hlo, hhi⟩ := lay.dataPage_lt
  have hwrite : user PTE_W = false := rfl
  have hread : user 0 = false := rfl
  simp only [kmap, List.mem_cons, List.not_mem_nil, or_false] at hk
  have hgood : k.virt = k.first * PGSIZE ∧
      uint (k.physEnd + 2 ^ 32 - k.physStart) = k.count * PGSIZE ∧
      k.physStart = k.physStart / PGSIZE * PGSIZE ∧ user k.perm = false ∧
      0 < k.count ∧ userPages ≤ k.first ∧ k.first + k.count ≤ pages := by
    rcases hk with rfl | rfl | rfl | rfl <;>
    · simp only [Kmap.first, Kmap.count, size_text, size_data, hwrite, hread]
      simp only [uint, KERNBASE, KERNLINK, EXTMEM, DEVSPACE, PGSIZE, pages, userPages, true_and]
      omega
  exact ⟨hgood.1, hgood.2.1, hgood.2.2.1, hgood.2.2.2.1, hgood.2.2.2.2.1, hgood.2.2.2.2.2.1,
    hgood.2.2.2.2.2.2⟩

theorem kmap_start {k : Kmap} (hk : k ∈ kmap lay) : k.physStart / PGSIZE < 2 ^ 20 := by
  obtain ⟨hlo, hhi⟩ := lay.dataPage_lt
  simp only [kmap, List.mem_cons, List.not_mem_nil, or_false] at hk
  rcases hk with rfl | rfl | rfl | rfl <;>
  · simp only [EXTMEM, DEVSPACE, PGSIZE]
    omega

theorem kmap_disjoint : (kmap lay).Pairwise fun k k' => ∀ u ∈ k'.area, u ∉ k.area := by
  obtain ⟨hlo, hhi⟩ := lay.dataPage_lt
  simp only [kmap, List.pairwise_cons, List.mem_cons, List.not_mem_nil, or_false,
    forall_eq_or_imp, forall_eq, Kmap.area, Kmap.first, Kmap.count, size_text, size_data,
    Set.mem_ofPred_eq]
  simp only [uint, KERNBASE, KERNLINK, EXTMEM, DEVSPACE, PGSIZE, Nat.reducePow]
  refine ⟨⟨?_, ?_, ?_⟩, ⟨?_, ?_⟩, ?_, ?_⟩ <;> grind

theorem area_kmap : {u | ∃ k ∈ kmap lay, u ∈ k.area} = kernelPages := by
  obtain ⟨hlo, hhi⟩ := lay.dataPage_lt
  ext u
  simp only [kmap, List.mem_cons, List.not_mem_nil, or_false, exists_eq_or_imp,
    exists_eq_left, Kmap.area, Kmap.first, Kmap.count, size_text, size_data, Set.mem_ofPred_eq]
  simp only [uint, kernelPages, KERNBASE, KERNLINK, EXTMEM, PHYSTOP, DEVSPACE, PGSIZE, pages,
    Nat.reducePow, Set.mem_ofPred_eq]
  omega

/-- The kernel half of a finished address space. -/
structure KernelHalf (m : Frame → Page) (d : Frame) : Prop where
  made : ∀ u ∈ kernelPages, present (pte m d u) = true ∧ user (pte m d u) = false
  gap : ∀ i, (KERNBASE + PHYSTOP) / 2 ^ 22 ≤ i → i < DEVSPACE / 2 ^ 22 → present (m d i) = false

/-- A new address space, without user pages. -/
structure Fresh (lay : Layout) (v v' : View Frame Page G) (d : Frame) (F : Multiset Frame) :
    Prop where
  holds : Holds lay v' d F
  absent : ∀ u < userPages, present (pte v'.mem d u) = false
  kernel : KernelHalf v'.mem d
  data : ∀ p ∈ F, v'.mem p = v.mem p
  ghost : v'.ghost = v.ghost
  failed : v'.failed = v.failed

/-- An empty page directory. -/
theorem holds_empty (hnodup : v.owned.Nodup) (howned : v.owned = {d} + F)
    (harena : ∀ p ∈ v.owned, lay.Arena p) (hempty : v.mem d = fun _ => 0) : Holds lay v d F := by
  refine ⟨?_, hnodup, harena⟩
  have htables : tables v.mem d = 0 := by
    rw [tables, hempty]
    exact Finset.sum_eq_zero fun _ _ => entry_zero
  have husers : users v.mem d = 0 := by
    rw [users]
    refine Finset.sum_eq_zero fun u _ => ?_
    rw [pte_of_absent (by rw [hempty, present_zero]), entry_zero]
  rw [howned, space, htables, husers, add_zero, ← Multiset.singleton_add, add_zero, add_comm]

theorem kernelPages_lt {u : ℕ} (hu : u ∈ kernelPages) : u < pages := by
  simp only [kernelPages, KERNBASE, PHYSTOP, DEVSPACE, PGSIZE, pages, Set.mem_ofPred_eq] at hu ⊢
  omega

theorem kernelPages_le {u : ℕ} (hu : u ∈ kernelPages) : userPages ≤ u := by
  simp only [kernelPages, KERNBASE, PHYSTOP, DEVSPACE, PGSIZE, pages, userPages,
    Set.mem_ofPred_eq] at hu ⊢
  omega

theorem kernelPages_gap {u i : ℕ} (hu : u ∈ kernelPages)
    (hlo : (KERNBASE + PHYSTOP) / 2 ^ 22 ≤ i) (hhi : i < DEVSPACE / 2 ^ 22) : u / 1024 ≠ i := by
  simp only [kernelPages, KERNBASE, PHYSTOP, DEVSPACE, PGSIZE, pages, Set.mem_ofPred_eq,
    Nat.reducePow] at hu hlo hhi
  omega

theorem safe_setupkvm {Q : Option Frame → View Frame Page G → Prop} (hL : L.arena = lay.Arena)
    (hnodup : v.owned.Nodup) (harena : ∀ p ∈ v.owned, lay.Arena p)
    (hnone : ∀ v', L.enough ≤ v.owned.card + NPDENTRIES + 1 → GaveUp v v' v.owned → Q none v')
    (hsome : ∀ d v', Fresh lay v v' d v.owned → KernelWords v'.mem d (kmap lay) →
      Q (some d) v') :
    L.Safe (setupkvm lay : Call σ R _) Q v := by
  simp only [setupkvm, Comp.bind_eq, safe_bind, safe_kalloc]
  refine ⟨fun henough => ?_, fun d x hd hnew => ?_⟩
  · exact hnone _ (by omega) ⟨rfl, fun _ _ => rfl, rfl, rfl⟩
  rw [hL] at hd
  have hlow : ¬ KERNBASE + PHYSTOP > DEVSPACE := by decide
  rw [if_neg hlow]
  simp only [safe_memset]
  refine ⟨Multiset.mem_cons_self d _, ?_⟩
  generalize hv₁ : (View.mk (d ::ₘ v.owned) (Function.update (Function.update v.mem d x) d _)
    v.ghost v.failed) = v₁
  have howned₁ : v₁.owned = {d} + v.owned := by rw [← hv₁, Multiset.singleton_add]
  have hdir₁ : v₁.mem d = fun _ => 0 := by simp [← hv₁]
  have hmem₁ : ∀ p ∈ v.owned, v₁.mem p = v.mem p := fun p hp => by
    have hne : p ≠ d := fun heq => hnew (heq ▸ hp)
    simp [← hv₁, hne]
  have hholds : Holds lay v₁ d v.owned := by
    refine holds_empty ?_ howned₁ (fun p hp => ?_) hdir₁
    · rw [howned₁, Multiset.singleton_add, Multiset.nodup_cons]
      exact ⟨hnew, hnodup⟩
    · rw [howned₁, Multiset.singleton_add, Multiset.mem_cons] at hp
      exact hp.elim (fun heq => heq ▸ hd) (harena p)
  have hpte₁ : ∀ u, pte v₁.mem d u = 0 := fun u =>
    pte_of_absent (by rw [hdir₁, present_zero])
  have hghost₁ : v₁.ghost = v.ghost := by rw [← hv₁]
  have hfailed₁ : v₁.failed = v.failed := by rw [← hv₁]
  have husers₁ : users v₁.mem d = 0 := by
    rw [users]
    exact Finset.sum_eq_zero fun u _ => by rw [hpte₁, entry_zero]
  refine safe_mapKernel hL hholds (fun k => kmap_good) (fun k => kmap_start) kmap_disjoint
    (fun k _ u _ => by rw [hpte₁, present_zero]) (fun v' henough hgave => ?_)
    fun v' hv' hwords => ?_
  · rw [husers₁, Multiset.card_zero, add_zero] at henough
    refine hnone v' henough ⟨hgave.owned, fun p hp => ?_, hgave.ghost.trans hghost₁, hgave.failed⟩
    rw [hgave.data p hp, hmem₁ p hp]
  · rw [area_kmap] at hv'
    refine hsome d v' ⟨hv'.holds, fun u hu => ?_, ⟨fun u hu => ?_, fun i hlo hhi => ?_⟩,
      fun p hp => ?_, hv'.ghost.trans hghost₁, hv'.failed.trans hfailed₁⟩ hwords
    · have hnot : u ∉ kernelPages := fun hmem => absurd (kernelPages_le hmem) (by omega)
      rw [hv'.others u (hu.trans userPages_lt) hnot, hpte₁, present_zero]
    · exact hv'.made u hu (kernelPages_lt hu)
    · rw [hv'.dir i fun u hu => kernelPages_gap hu hlo hhi, hdir₁, present_zero]
    · rw [hv'.data p hp, hmem₁ p hp]

end Xv6.Vm
