import Xv6.Vm.Build

/-!
# A process of any size

Page tables as `setupkvm` and `allocuvm` make them, for a process of `n` user pages:
the page directory is page 2000, the page tables of the user half follow it, those of
the kernel half are from page 3000 on, and the user pages from page 10000 on.
-/

namespace Xv6.Vm

open Allocation

variable {lay : Layout} {n i u : ℕ} {fill : ℕ → Page}

def sampleLayout : Layout where
  endPage := 1024
  dataPage := 260
  text := by decide
  data_le := by decide
  end_lt := by decide

def pde (pgtab : Frame) : ℕ := pgtab * PGSIZE ||| PTE_P ||| PTE_W ||| PTE_U

/-- The entry that `setupkvm` makes for the kernel's page `u`. -/
def kernelPte (lay : Layout) (u : ℕ) : ℕ :=
  if 0x80000 ≤ u ∧ u < 0x8E000 then
    (u - 0x80000) * PGSIZE |||
      (if 0x80100 ≤ u ∧ u < 0x80000 + lay.dataPage then 0 else PTE_W) ||| PTE_P
  else if 0xFE000 ≤ u then u * PGSIZE ||| PTE_W ||| PTE_P
  else 0

/-- User page `u` contains `fill u`. -/
def sampleMem (lay : Layout) (n : ℕ) (fill : ℕ → Page) (p i : ℕ) : ℕ :=
  if p = 2000 then
    if i * 1024 < n then pde (2001 + i)
    else if 512 ≤ i ∧ i < 568 ∨ 1016 ≤ i then pde (3000 + i)
    else 0
  else if p ≤ 2512 then
    if (p - 2001) * 1024 + i < n then
      (10000 + ((p - 2001) * 1024 + i)) * PGSIZE ||| (PTE_W ||| PTE_U) ||| PTE_P
    else 0
  else if p < 10000 then kernelPte lay ((p - 3000) * 1024 + i)
  else fill (p - 10000) i

theorem PTE_ADDR_pde' (t : Frame) : PTE_ADDR (pde t) = t := PTE_ADDR_pde t

theorem present_pde' (t : Frame) : present (pde t) = true := present_pde _

theorem sampleMem_dir :
    sampleMem lay n fill 2000 i = if i * 1024 < n then pde (2001 + i)
      else if 512 ≤ i ∧ i < 568 ∨ 1016 ≤ i then pde (3000 + i) else 0 := rfl

theorem sampleMem_table (hi : i < 512) (j : ℕ) :
    sampleMem lay n fill (2001 + i) j = if i * 1024 + j < n then
      (10000 + (i * 1024 + j)) * PGSIZE ||| (PTE_W ||| PTE_U) ||| PTE_P else 0 := by
  rw [sampleMem, if_neg (by omega), if_pos (by omega), Nat.add_sub_cancel_left]

theorem sampleMem_user (u : ℕ) : sampleMem lay n fill (10000 + u) = fill u := by
  funext i
  rw [sampleMem, if_neg (by omega), if_neg (by omega), if_neg (by omega),
    Nat.add_sub_cancel_left]

/-- The entries for user pages. -/
theorem pte_sample (hu : u < userPages) :
    pte (sampleMem lay n fill) 2000 u =
      if u < n then (10000 + u) * PGSIZE ||| (PTE_W ||| PTE_U) ||| PTE_P else 0 := by
  have hsplit : u / 1024 * 1024 + u % 1024 = u := Nat.div_add_mod' u 1024
  have hlt : u / 1024 < 512 := by
    unfold userPages at hu
    omega
  by_cases hpde : u / 1024 * 1024 < n
  · have hdir : sampleMem lay n fill 2000 (u / 1024) = pde (2001 + u / 1024) := by
      rw [sampleMem_dir, if_pos hpde]
    rw [pte_of_present (by rw [hdir, present_pde']), hdir, PTE_ADDR_pde', sampleMem_table hlt,
      hsplit]
  · have hdir : sampleMem lay n fill 2000 (u / 1024) = 0 := by
      rw [sampleMem_dir, if_neg hpde, if_neg (by omega)]
    rw [pte_of_absent (by rw [hdir, present_zero]), if_neg (by omega)]

/-! ## The pages of the sample are different -/

/-- Entries that name different pages. -/
theorem nodup_entries {f : ℕ → ℕ} {g : ℕ → Frame}
    (hg : ∀ i < n, present (f i) = true → PTE_ADDR (f i) = g i)
    (hinj : ∀ i < n, ∀ j < n, present (f i) = true → present (f j) = true → g i = g j → i = j) :
    (∑ i ∈ Finset.range n, entry (f i)).Nodup := by
  induction n with
  | zero => simp
  | succ n ih =>
      have hrest := ih (fun i hi => hg i (by omega)) fun i hi j hj => hinj i (by omega) j (by omega)
      rw [Finset.sum_range_succ]
      by_cases hpresent : present (f n) = true
      · rw [entry_of_present hpresent, Multiset.nodup_add]
        refine ⟨hrest, Multiset.nodup_singleton _, Multiset.disjoint_left.mpr ?_⟩
        intro p hp hp'
        obtain ⟨i, hi, hmem⟩ := Multiset.mem_sum.mp hp
        have hi := Finset.mem_range.mp hi
        by_cases hpi : present (f i) = true
        · rw [entry_of_present hpi, Multiset.mem_singleton] at hmem
          have heq : g i = g n := by
            rw [← hg i (by omega) hpi, ← hg n (by omega) hpresent, ← hmem,
              ← Multiset.mem_singleton.mp hp']
          have := hinj i (by omega) n (by omega) hpi hpresent heq
          omega
        · rw [entry_of_absent (by simpa using hpi)] at hmem
          simp at hmem
      · rwa [entry_of_absent (by simpa using hpresent), add_zero]

theorem mem_users_iff {m : Frame → Page} {d p : Frame} :
    p ∈ users m d ↔ ∃ u < userPages, present (pte m d u) = true ∧ PTE_ADDR (pte m d u) = p := by
  simp only [users, Multiset.mem_sum, Finset.mem_range]
  constructor
  · rintro ⟨u, hu, hp⟩
    by_cases h : present (pte m d u) = true
    · rw [entry_of_present h, Multiset.mem_singleton] at hp
      exact ⟨u, hu, h, hp.symm⟩
    · simp [entry, h] at hp
  · rintro ⟨u, hu, h, rfl⟩
    exact ⟨u, hu, by simp [entry, h]⟩

/-- The table that the entry `i` of the page directory names. -/
def sampleTable (n i : ℕ) : ℕ :=
  if i * 1024 < n then 2001 + i else 3000 + i

theorem sampleMem_dir_addr (h : present (sampleMem lay n fill 2000 i) = true) :
    PTE_ADDR (sampleMem lay n fill 2000 i) = sampleTable n i := by
  rw [sampleMem_dir] at h ⊢
  unfold sampleTable
  split
  · rw [PTE_ADDR_pde']
  · rename_i hlt
    rw [if_neg hlt] at h
    split
    · rw [PTE_ADDR_pde']
    · rename_i hkernel
      rw [if_neg hkernel, present_zero] at h
      simp at h

theorem sampleTable_bounds (hi : i < NPDENTRIES) :
    2001 ≤ sampleTable n i ∧ sampleTable n i < 4024 := by
  unfold NPDENTRIES at hi
  unfold sampleTable
  split <;> omega

theorem sampleTable_inj {j : ℕ} (heq : sampleTable n i = sampleTable n j) : i = j := by
  unfold sampleTable at heq
  split at heq <;> split at heq <;> omega

theorem mem_sample_tables {p : ℕ} (hp : p ∈ tables (sampleMem lay n fill) 2000) :
    2001 ≤ p ∧ p < 4024 := by
  obtain ⟨i, hi, hpresent, rfl⟩ := mem_tables_iff.mp hp
  rw [sampleMem_dir_addr hpresent]
  exact sampleTable_bounds hi

theorem mem_sample_users {p : ℕ} (hp : p ∈ users (sampleMem lay n fill) 2000) :
    10000 ≤ p ∧ p < 10000 + n := by
  obtain ⟨u, hu, hpresent, rfl⟩ := mem_users_iff.mp hp
  rw [pte_sample hu] at hpresent ⊢
  split at hpresent
  · rename_i hlt
    rw [if_pos hlt, PTE_ADDR_pte (by decide)]
    omega
  · simp at hpresent

theorem sample_nodup : (space (sampleMem lay n fill) 2000).Nodup := by
  have htables : (tables (sampleMem lay n fill) 2000).Nodup := by
    refine nodup_entries (fun i _ => sampleMem_dir_addr) fun i _ j _ _ _ heq => ?_
    exact sampleTable_inj heq
  have husers : (users (sampleMem lay n fill) 2000).Nodup := by
    refine nodup_entries (g := fun u => 10000 + u) (fun u hu hpresent => ?_)
      fun u _ u' _ _ _ heq => Nat.add_left_cancel heq
    rw [pte_sample hu] at hpresent ⊢
    split at hpresent
    · rename_i hlt
      rw [if_pos hlt, PTE_ADDR_pte (by decide)]
    · simp at hpresent
  rw [space, Multiset.nodup_cons, Multiset.mem_add, Multiset.nodup_add]
  refine ⟨fun hmem => ?_, htables, husers, Multiset.disjoint_left.mpr ?_⟩
  · rcases hmem with hmem | hmem
    · have := (mem_sample_tables hmem).1
      omega
    · have := (mem_sample_users hmem).1
      omega
  · intro p hp hp'
    exact absurd (mem_sample_users hp').1 (by have := (mem_sample_tables hp).2; omega)

theorem mem_sample_space (hn : n ≤ 40000) {p : ℕ} (hp : p ∈ space (sampleMem lay n fill) 2000) :
    2000 ≤ p ∧ p < 50000 := by
  rcases mem_space.mp hp with rfl | hp | hp
  · omega
  · have := mem_sample_tables hp
    omega
  · have := mem_sample_users hp
    omega

/-- The pages of the sample are pages of the allocator. -/
theorem sample_arena (hn : n ≤ 40000) {p : ℕ}
    (hp : p ∈ space (sampleMem sampleLayout n fill) 2000) :
    sampleLayout.Arena p ∧ 2000 ≤ p := by
  have hbounds := mem_sample_space hn hp
  refine ⟨⟨le_trans (by decide) hbounds.1, hbounds.2.trans_le (by decide)⟩, hbounds.1⟩

end Xv6.Vm
