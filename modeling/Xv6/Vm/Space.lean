import Mathlib.Algebra.BigOperators.Group.Finset.Basic
import Mathlib.Algebra.Order.BigOperators.Group.Finset
import Mathlib.Data.Multiset.Basic
import Xv6.Vm.Code

/-!
# Address spaces

What a page directory in memory says: the entry `pte m d u` for the virtual page
`u`, the page tables, the pages of the user half (`users`), and all pages of the
address space together (`space`).  While no page occurs in it twice, a new page table
and a new entry change it at one place only.
-/

namespace Xv6.Vm

/-- Page 0 is not the allocator's. -/
theorem Layout.Arena.pos {lay : Layout} {v : Frame} (h : lay.Arena v) : 0 < v :=
  (Nat.zero_le _).trans_lt (lay.text.trans_le (lay.data_le.trans h.1))

/-! ## Entries -/

@[simp] theorem present_zero : present 0 = false := by simp [present]

@[simp] theorem present_pte (pa perm : ℕ) : present (pa ||| perm ||| PTE_P) = true := by
  simp [present, PTE_P]

@[simp] theorem present_pde (pa : ℕ) : present (pa ||| PTE_P ||| PTE_W ||| PTE_U) = true := by
  simp [present, PTE_P]

theorem PTE_ADDR_or {v flags : ℕ} (hflags : flags < PGSIZE) :
    PTE_ADDR (v * PGSIZE ||| flags) = v := by
  have hpow : PGSIZE = 2 ^ 12 := rfl
  rw [hpow] at hflags
  rw [PTE_ADDR, hpow, Nat.or_div_two_pow, Nat.div_eq_of_lt hflags, Nat.or_zero,
    Nat.mul_div_cancel v (by decide)]

theorem PTE_ADDR_pte {v perm : ℕ} (hperm : perm < PGSIZE) :
    PTE_ADDR (v * PGSIZE ||| perm ||| PTE_P) = v := by
  rw [Nat.or_assoc]
  exact PTE_ADDR_or (Nat.or_lt_two_pow (n := 12) hperm (by decide))

theorem PTE_ADDR_pde (v : ℕ) : PTE_ADDR (v * PGSIZE ||| PTE_P ||| PTE_W ||| PTE_U) = v := by
  rw [Nat.or_assoc, Nat.or_assoc]
  exact PTE_ADDR_or (by decide)

/-- The page that an entry refers to, if any. -/
def entry (word : ℕ) : Multiset Frame :=
  if present word then {PTE_ADDR word} else 0

@[simp] theorem entry_zero : entry 0 = 0 := rfl

theorem entry_of_present {word : ℕ} (h : present word = true) : entry word = {PTE_ADDR word} :=
  if_pos h

theorem entry_of_absent {word : ℕ} (h : present word = false) : entry word = 0 := by
  simp [entry, h]

/-! ## Tables and pages -/

/-- The number of virtual pages, and of those below `KERNBASE`. -/
def pages : ℕ := 2 ^ 20
@[irreducible] def userPages : ℕ := 2 ^ 19

variable {m m' : Frame → Page} {d t u u' i : ℕ} {w : ℕ}

/-- The entry for virtual page `u`, 0 where there is no page table. -/
def pte (m : Frame → Page) (d : Frame) (u : ℕ) : ℕ :=
  if present (m d (u / 1024)) then m (PTE_ADDR (m d (u / 1024))) (u % 1024) else 0

def tables (m : Frame → Page) (d : Frame) : Multiset Frame :=
  ∑ i ∈ Finset.range NPDENTRIES, entry (m d i)

def users (m : Frame → Page) (d : Frame) : Multiset Frame :=
  ∑ u ∈ Finset.range userPages, entry (pte m d u)

/-- The pages of an address space. -/
def space (m : Frame → Page) (d : Frame) : Multiset Frame :=
  d ::ₘ (tables m d + users m d)

theorem pte_of_absent (h : present (m d (u / 1024)) = false) : pte m d u = 0 := by
  simp [pte, h]

theorem pte_of_present (h : present (m d (u / 1024)) = true) :
    pte m d u = m (PTE_ADDR (m d (u / 1024))) (u % 1024) :=
  if_pos h

theorem mem_tables (hi : i < NPDENTRIES) (h : present (m d i) = true) :
    PTE_ADDR (m d i) ∈ tables m d := by
  rw [tables, Multiset.mem_sum]
  exact ⟨i, Finset.mem_range.mpr hi, by simp [entry, h]⟩

theorem mem_tables_iff {p : Frame} :
    p ∈ tables m d ↔ ∃ i < NPDENTRIES, present (m d i) = true ∧ PTE_ADDR (m d i) = p := by
  simp only [tables, Multiset.mem_sum, Finset.mem_range]
  constructor
  · rintro ⟨i, hi, hp⟩
    by_cases h : present (m d i) = true
    · rw [entry_of_present h, Multiset.mem_singleton] at hp
      exact ⟨i, hi, h, hp.symm⟩
    · simp [entry, h] at hp
  · rintro ⟨i, hi, h, rfl⟩
    exact ⟨i, hi, by simp [entry, h]⟩

theorem mem_users (hu : u < userPages) (h : present (pte m d u) = true) :
    PTE_ADDR (pte m d u) ∈ users m d := by
  rw [users, Multiset.mem_sum]
  exact ⟨u, Finset.mem_range.mpr hu, by simp [entry, h]⟩

theorem div_lt_NPDENTRIES (hu : u < pages) : u / 1024 < NPDENTRIES := by
  unfold pages at hu
  unfold NPDENTRIES
  omega

theorem mem_space {p : Frame} : p ∈ space m d ↔ p = d ∨ p ∈ tables m d ∨ p ∈ users m d := by
  rw [space, Multiset.mem_cons, Multiset.mem_add]

theorem dir_mem_space : d ∈ space m d := mem_space.mpr (Or.inl rfl)

/-! ## The same address space -/

theorem tables_congr (h : m' d = m d) : tables m' d = tables m d := by
  simp only [tables, h]

theorem pte_congr (hd : m' d = m d) (h : ∀ p ∈ tables m d, m' p = m p) (hu : u < pages) :
    pte m' d u = pte m d u := by
  by_cases hpde : present (m d (u / 1024)) = true
  · rw [pte_of_present hpde, pte_of_present (by rw [hd, hpde]), hd,
      h _ (mem_tables (div_lt_NPDENTRIES hu) hpde)]
  · have habsent : present (m d (u / 1024)) = false := by simpa using hpde
    rw [pte_of_absent habsent, pte_of_absent (by rw [hd, habsent])]

theorem users_congr (h : ∀ u < userPages, pte m' d u = pte m d u) : users m' d = users m d := by
  rw [users, users]
  refine Finset.sum_congr rfl fun u hu => ?_
  rw [h u (Finset.mem_range.mp hu)]

theorem userPages_lt : userPages < pages := by
  unfold userPages pages
  decide

theorem space_congr (hd : m' d = m d) (h : ∀ p ∈ tables m d, m' p = m p) :
    space m' d = space m d := by
  rw [space, space, tables_congr hd,
    users_congr fun u hu => pte_congr hd h (hu.trans userPages_lt)]

/-! ## One entry changes -/

/-- Sums that differ in one summand. -/
theorem sum_change {f g : ℕ → Multiset Frame} {n : ℕ} (hi : i < n)
    (h : ∀ j < n, j ≠ i → g j = f j) :
    ∑ j ∈ Finset.range n, g j + f i = ∑ j ∈ Finset.range n, f j + g i := by
  have hmem : i ∈ Finset.range n := Finset.mem_range.mpr hi
  have hrest : ∑ j ∈ (Finset.range n).erase i, g j = ∑ j ∈ (Finset.range n).erase i, f j :=
    Finset.sum_congr rfl fun j hj =>
      h j (Finset.mem_range.mp (Finset.mem_of_mem_erase hj)) (Finset.ne_of_mem_erase hj)
  rw [← Finset.add_sum_erase _ g hmem, ← Finset.add_sum_erase _ f hmem, hrest]
  ac_rfl

theorem dir_notMem_tables (hnodup : (space m d).Nodup) : d ∉ tables m d := by
  rw [space, Multiset.nodup_cons, Multiset.mem_add, not_or] at hnodup
  exact hnodup.1.1

theorem user_notMem (hnodup : (space m d).Nodup) {p : Frame} (hp : p ∈ users m d) :
    p ≠ d ∧ p ∉ tables m d := by
  rw [space, Multiset.nodup_cons, Multiset.mem_add, not_or, Multiset.nodup_add] at hnodup
  refine ⟨?_, fun htable => Multiset.disjoint_left.mp hnodup.2.2.2 htable hp⟩
  rintro rfl
  exact hnodup.1.2 hp

/-- Different entries of the page directory name different tables. -/
theorem table_ne (hnodup : (space m d).Nodup) {j : ℕ} (hi : i < NPDENTRIES) (hj : j < NPDENTRIES)
    (hij : i ≠ j) (hpi : present (m d i) = true) (hpj : present (m d j) = true) :
    PTE_ADDR (m d i) ≠ PTE_ADDR (m d j) := by
  have htables : (tables m d).Nodup := by
    rw [space, Multiset.nodup_cons, Multiset.nodup_add] at hnodup
    exact hnodup.2.1
  have hsub : ({i, j} : Finset ℕ) ⊆ Finset.range NPDENTRIES := by
    intro k hk
    rcases Finset.mem_insert.mp hk with rfl | hk
    · exact Finset.mem_range.mpr hi
    · rw [Finset.mem_singleton.mp hk]
      exact Finset.mem_range.mpr hj
  have hle : entry (m d i) + entry (m d j) ≤ tables m d := by
    rw [tables, ← Finset.sum_pair hij (f := fun k => entry (m d k))]
    exact Finset.sum_le_sum_of_subset hsub
  have hpair := Multiset.nodup_of_le hle htables
  rw [entry_of_present hpi, entry_of_present hpj] at hpair
  intro heq
  rw [heq] at hpair
  simp at hpair

/-- A word of the page table for `u` changes. -/
theorem pte_store (hnodup : (space m d).Nodup) (hu : u < pages)
    (hpde : present (m d (u / 1024)) = true) (hu' : u' < pages) :
    pte (Function.update m (PTE_ADDR (m d (u / 1024)))
      (Function.update (m (PTE_ADDR (m d (u / 1024)))) (u % 1024) w)) d u' =
      if u' = u then w else pte m d u' := by
  have htable := mem_tables (div_lt_NPDENTRIES hu) hpde
  have hd : d ≠ PTE_ADDR (m d (u / 1024)) := fun heq => by
    rw [← heq] at htable
    exact dir_notMem_tables hnodup htable
  by_cases hpde' : present (m d (u' / 1024)) = true
  · rw [pte_of_present (by rw [Function.update_of_ne hd]; exact hpde'), Function.update_of_ne hd]
    by_cases hsame : u' / 1024 = u / 1024
    · rw [hsame, Function.update_self]
      by_cases heq : u' = u
      · rw [if_pos heq, heq, Function.update_self]
      · rw [if_neg heq, Function.update_of_ne (by omega), pte_of_present hpde', hsame]
    · have hne := table_ne hnodup (div_lt_NPDENTRIES hu') (div_lt_NPDENTRIES hu) hsame hpde' hpde
      rw [Function.update_of_ne hne, if_neg (by rintro rfl; exact hsame rfl), pte_of_present hpde']
  · have habsent : present (m d (u' / 1024)) = false := by simpa using hpde'
    rw [pte_of_absent (by rw [Function.update_of_ne hd]; exact habsent), if_neg,
      pte_of_absent habsent]
    rintro rfl
    rw [hpde] at habsent
    simp at habsent

/-- An empty page table is put in at index `i`. -/
theorem pte_newTable {word : ℕ} (hnew : PTE_ADDR word ∉ space m d)
    (hnodup : (space m d).Nodup) (hi : present (m d i) = false) (hword : present word = true)
    (hd : m' d = Function.update (m d) i word) (ht : m' (PTE_ADDR word) = fun _ => 0)
    (hrest : ∀ p, p ≠ d → p ≠ PTE_ADDR word → m' p = m p) (hu : u < pages) :
    pte m' d u = pte m d u := by
  by_cases hui : u / 1024 = i
  · subst hui
    rw [pte_of_absent hi, pte_of_present (by rw [hd, Function.update_self, hword]), hd,
      Function.update_self, ht]
  · have hsame : m' d (u / 1024) = m d (u / 1024) := by rw [hd, Function.update_of_ne hui]
    by_cases hpde : present (m d (u / 1024)) = true
    · have htable := mem_tables (div_lt_NPDENTRIES hu) hpde
      have hne : PTE_ADDR (m d (u / 1024)) ≠ d := fun heq => by
        rw [heq] at htable
        exact dir_notMem_tables hnodup htable
      have hne' : PTE_ADDR (m d (u / 1024)) ≠ PTE_ADDR word := fun heq => by
        rw [heq] at htable
        exact hnew (mem_space.mpr (Or.inr (Or.inl htable)))
      rw [pte_of_present hpde, pte_of_present (by rw [hsame, hpde]), hsame, hrest _ hne hne']
    · have habsent : present (m d (u / 1024)) = false := by simpa using hpde
      rw [pte_of_absent habsent, pte_of_absent (by rw [hsame, habsent])]

theorem tables_newTable {word : ℕ} (hi : i < NPDENTRIES) (habsent : present (m d i) = false)
    (hword : present word = true) (hd : m' d = Function.update (m d) i word) :
    tables m' d = {PTE_ADDR word} + tables m d := by
  have hsum := sum_change (f := fun j => entry (m d j)) (g := fun j => entry (m' d j)) hi
    fun j _ hj => by simp only [hd, Function.update_of_ne hj]
  simp only [hd, Function.update_self, entry_of_absent habsent, entry_of_present hword,
    add_zero] at hsum
  rw [tables, tables, hd, hsum, add_comm]

/-- The entry of one user page changes. -/
theorem users_change (hu : u < userPages)
    (h : ∀ u' < userPages, u' ≠ u → pte m' d u' = pte m d u') :
    users m' d + entry (pte m d u) = users m d + entry (pte m' d u) := by
  rw [users, users]
  exact sum_change (f := fun j => entry (pte m d j)) hu fun j hj hne => by rw [h j hj hne]

end Xv6.Vm
