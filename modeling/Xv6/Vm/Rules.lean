import Xv6.Vm.Space

/-!
# What the functions of `vm.c` do

One rule for each function, over a view that owns an address space and other pages
(`Holds`).  A rule gives the view after the call; that nothing else of what is
owned changes is part of it.

The rules hold in every logic whose pages are those of the arena, so they do not
depend on what other processes do meanwhile.
-/

namespace Xv6.Vm

open Allocation Logic

variable {σ R G : Type} {L : Logic Frame Page σ R G} {lay : Layout}
variable {v v' : View Frame Page G} {d u : ℕ} {F F' : Multiset Frame}

/-! ## Pages -/

section Pages

variable {p : Frame} {i word : ℕ}

@[simp] theorem safe_load {Q : ℕ → View Frame Page G → Prop} :
    L.Safe (load p i : Call σ R ℕ) Q v ↔ p ∈ v.owned ∧ Q (v.mem p i) v := Iff.rfl

@[simp] theorem safe_store {Q : Unit → View Frame Page G → Prop} :
    L.Safe (store p i word : Call σ R Unit) Q v ↔ p ∈ v.owned ∧
      Q () { v with mem := Function.update v.mem p (Function.update (v.mem p) i word) } := Iff.rfl

@[simp] theorem safe_memset {Q : Unit → View Frame Page G → Prop} :
    L.Safe (memset p word : Call σ R Unit) Q v ↔ p ∈ v.owned ∧
      Q () { v with mem := Function.update v.mem p fun _ => word } := Iff.rfl

@[simp] theorem safe_memmove {src : Frame} {Q : Unit → View Frame Page G → Prop} :
    L.Safe (memmove p src : Call σ R Unit) Q v ↔ src ∈ v.owned ∧ p ∈ v.owned ∧
      Q () { v with mem := Function.update v.mem p (v.mem src) } := Iff.rfl

@[simp] theorem safe_kalloc {Q : Option Frame → View Frame Page G → Prop} :
    L.Safe (kalloc : Call σ R (Option Frame)) Q v ↔
      (L.enough ≤ v.owned.card → Q none { v with failed := true }) ∧
      ∀ p x, L.arena p → p ∉ v.owned →
        Q (some p) { v with owned := p ::ₘ v.owned, mem := Function.update v.mem p x } := Iff.rfl

theorem safe_kfree {Q : Unit → View Frame Page G → Prop} (hp : p ∈ v.owned)
    (harena : lay.Arena p)
    (hQ : Q () { v with
      owned := v.owned.erase p
      mem := Function.update v.mem p fun _ => 0x01010101 }) :
    L.Safe (kfree lay p : Call σ R Unit) Q v := by
  rw [kfree, if_pos harena]
  exact ⟨hp, hp, hQ⟩

end Pages

/-! ## What a call has in hand -/

/-- The call owns the address space of `d` and the pages `F`. -/
structure Holds (lay : Layout) (v : View Frame Page G) (d : Frame) (F : Multiset Frame) :
    Prop where
  owned : v.owned = F + space v.mem d
  nodup : v.owned.Nodup
  arena : ∀ p ∈ v.owned, lay.Arena p

namespace Holds

theorem space_le (h : Holds lay v d F) : space v.mem d ≤ v.owned := by
  rw [h.owned]
  exact Multiset.le_add_left _ _

theorem space_nodup (h : Holds lay v d F) : (space v.mem d).Nodup :=
  Multiset.nodup_of_le h.space_le h.nodup

theorem dir_mem (h : Holds lay v d F) : d ∈ v.owned :=
  Multiset.mem_of_le h.space_le dir_mem_space

theorem table_mem (h : Holds lay v d F) (hu : u < pages)
    (hpde : present (v.mem d (u / 1024)) = true) : PTE_ADDR (v.mem d (u / 1024)) ∈ v.owned :=
  Multiset.mem_of_le h.space_le
    (mem_space.mpr (Or.inr (Or.inl (mem_tables (div_lt_NPDENTRIES hu) hpde))))

theorem user_mem (h : Holds lay v d F) (hu : u < userPages)
    (hpte : present (pte v.mem d u) = true) : PTE_ADDR (pte v.mem d u) ∈ v.owned :=
  Multiset.mem_of_le h.space_le (mem_space.mpr (Or.inr (Or.inr (mem_users hu hpte))))

theorem dir_ne (h : Holds lay v d F) (hu : u < pages)
    (hpde : present (v.mem d (u / 1024)) = true) : d ≠ PTE_ADDR (v.mem d (u / 1024)) := by
  intro heq
  have hmem := mem_tables (div_lt_NPDENTRIES hu) hpde
  rw [← heq] at hmem
  exact dir_notMem_tables h.space_nodup hmem

/-- What is in `F` is not of the address space. -/
theorem notMem_space (h : Holds lay v d F) {p : Frame} (hp : p ∈ F) : p ∉ space v.mem d := by
  have hnodup := h.nodup
  rw [h.owned, Multiset.nodup_add] at hnodup
  exact Multiset.disjoint_left.mp hnodup.2.2 hp

theorem failed (h : Holds lay v d F) : Holds lay { v with failed := true } d F :=
  ⟨h.owned, h.nodup, h.arena⟩

end Holds

/-! ## `walkpgdir` and one round of `mappages` -/

theorem PDX_eq (a : ℕ) : PDX a = a / PGSIZE / 1024 := by
  unfold PDX PGSIZE
  omega

theorem PTX_eq (a : ℕ) : PTX a = a / PGSIZE % 1024 := by
  unfold PTX PGSIZE
  omega

theorem page_lt {a : ℕ} (ha : a < 2 ^ 32) : a / PGSIZE < pages := by
  unfold PGSIZE pages
  omega

theorem safe_walkpgdir {Q : Option (Frame × ℕ) → View Frame Page G → Prop} {va : ℕ}
    (hd : d ∈ v.owned)
    (hnone : present (v.mem d (PDX va)) = false → Q none v)
    (hsome : present (v.mem d (PDX va)) = true → Q (some (PTE_ADDR (v.mem d (PDX va)), PTX va)) v) :
    L.Safe (walkpgdir d va false : Call σ R _) Q v := by
  simp only [walkpgdir, Comp.bind_eq, safe_bind, safe_load]
  refine ⟨hd, ?_⟩
  by_cases h : present (v.mem d (PDX va)) = true
  · simpa [h] using hsome h
  · have habsent : present (v.mem d (PDX va)) = false := by simpa using h
    simpa [habsent] using hnone habsent

/-- Virtual page `u` has been mapped by `word`, perhaps in a new page table. -/
structure Mapped (lay : Layout) (v v' : View Frame Page G) (d u word : ℕ) : Prop where
  absent : present (pte v.mem d u) = false
  entries : ∀ u' < pages, pte v'.mem d u' = if u' = u then word else pte v.mem d u'
  newTable : ∃ T, tables v'.mem d = T + tables v.mem d ∧ v'.owned = T + v.owned
  dir : ∀ i, i ≠ u / 1024 → v'.mem d i = v.mem d i
  nodup : v'.owned.Nodup
  arena : ∀ p ∈ v'.owned, lay.Arena p
  data : ∀ p ∈ v.owned, p ≠ d → p ∉ tables v.mem d → v'.mem p = v.mem p
  ghost : v'.ghost = v.ghost
  failed : v'.failed = v.failed

namespace Mapped

variable {word : ℕ}

theorem owned_le (h : Mapped lay v v' d u word) : v.owned ≤ v'.owned := by
  obtain ⟨T, -, howned⟩ := h.newTable
  rw [howned]
  exact Multiset.le_add_left _ _

/-- A page of the kernel half is mapped. -/
theorem holds_kernel (h : Mapped lay v v' d u word) (hv : Holds lay v d F)
    (hu : userPages ≤ u) : Holds lay v' d F := by
  obtain ⟨T, htables, howned⟩ := h.newTable
  have husers : users v'.mem d = users v.mem d := users_congr fun u' hu' => by
    rw [h.entries u' (hu'.trans userPages_lt), if_neg (by omega)]
  refine ⟨?_, h.nodup, h.arena⟩
  rw [howned, hv.owned, space, space, htables, husers]
  simp only [← Multiset.singleton_add]
  ac_rfl

/-- A page of the user half is mapped to a page that the call has in hand. -/
theorem holds_user (h : Mapped lay v v' d u word) (hv : Holds lay v d ({PTE_ADDR word} + F))
    (hu : u < userPages) (hword : present word = true) : Holds lay v' d F := by
  obtain ⟨T, htables, howned⟩ := h.newTable
  have hpte : pte v'.mem d u = word := by rw [h.entries u (hu.trans userPages_lt), if_pos rfl]
  have husers : users v'.mem d = users v.mem d + {PTE_ADDR word} := by
    have hchange : users v'.mem d + entry (pte v.mem d u) = _ :=
      users_change hu fun u' hu' hne => by
        rw [h.entries u' (hu'.trans userPages_lt), if_neg hne]
    rwa [entry_of_absent h.absent, add_zero, hpte, entry_of_present hword] at hchange
  refine ⟨?_, h.nodup, h.arena⟩
  rw [howned, hv.owned, space, space, htables, husers]
  simp only [← Multiset.singleton_add]
  ac_rfl

end Mapped

/-- What `walkpgdir` leaves behind when it puts in the page table `t`. -/
structure NewTable (lay : Layout) (v v' : View Frame Page G) (d i t : ℕ) : Prop where
  dir : v'.mem d = Function.update (v.mem d) i (t * PGSIZE ||| PTE_P ||| PTE_W ||| PTE_U)
  empty : v'.mem t = fun _ => 0
  rest : ∀ p, p ≠ d → p ≠ t → v'.mem p = v.mem p
  new : t ∉ v.owned
  arena : lay.Arena t
  owned : v'.owned = {t} + v.owned
  ghost : v'.ghost = v.ghost
  failed : v'.failed = v.failed

namespace NewTable

variable {i t : ℕ}

theorem ne_dir (h : NewTable lay v v' d i t) (hv : Holds lay v d F) : t ≠ d := fun heq =>
  h.new (heq ▸ hv.dir_mem)

theorem tables_eq (h : NewTable lay v v' d i t) (hi : i < NPDENTRIES)
    (habsent : present (v.mem d i) = false) : tables v'.mem d = {t} + tables v.mem d := by
  have htables := tables_newTable hi habsent (present_pde _) h.dir
  rwa [PTE_ADDR_pde] at htables

theorem entries (h : NewTable lay v v' d i t) (hv : Holds lay v d F)
    (habsent : present (v.mem d i) = false) (hu : u < pages) : pte v'.mem d u = pte v.mem d u := by
  refine pte_newTable ?_ hv.space_nodup habsent (present_pde _) h.dir ?_ ?_ hu
  · rw [PTE_ADDR_pde]
    exact fun hmem => h.new (Multiset.mem_of_le hv.space_le hmem)
  · rw [PTE_ADDR_pde]
    exact h.empty
  · rw [PTE_ADDR_pde]
    exact h.rest

theorem holds (h : NewTable lay v v' d i t) (hv : Holds lay v d F) (hi : i < NPDENTRIES)
    (habsent : present (v.mem d i) = false) : Holds lay v' d F where
  owned := by
    have husers : users v'.mem d = users v.mem d := users_congr fun u hu =>
      h.entries hv habsent (hu.trans userPages_lt)
    rw [h.owned, hv.owned, space, space, h.tables_eq hi habsent, husers]
    simp only [← Multiset.singleton_add]
    ac_rfl
  nodup := by
    rw [h.owned, Multiset.singleton_add, Multiset.nodup_cons]
    exact ⟨h.new, hv.nodup⟩
  arena p hp := by
    rw [h.owned, Multiset.singleton_add, Multiset.mem_cons] at hp
    rcases hp with rfl | hp
    · exact h.arena
    · exact hv.arena p hp

end NewTable

/-- A word is stored in the page table for `u`. -/
theorem Holds.store (hv : Holds lay v d F) {word : ℕ} (hu : u < pages)
    (hpde : present (v.mem d (u / 1024)) = true) (habsent : present (pte v.mem d u) = false) :
    Mapped lay v { v with
      mem := Function.update v.mem (PTE_ADDR (v.mem d (u / 1024)))
        (Function.update (v.mem (PTE_ADDR (v.mem d (u / 1024)))) (u % 1024) word) } d u word where
  absent := habsent
  entries u' hu' := pte_store hv.space_nodup hu hpde hu'
  newTable := by
    refine ⟨0, ?_, by rw [zero_add]⟩
    rw [zero_add, tables_congr]
    exact Function.update_of_ne (hv.dir_ne hu hpde) _ _
  dir i _ := congrFun (Function.update_of_ne (hv.dir_ne hu hpde) _ _) i
  nodup := hv.nodup
  arena := hv.arena
  data p _ _ hp := by
    refine Function.update_of_ne (fun heq => hp ?_) _ _
    rw [heq]
    exact mem_tables (div_lt_NPDENTRIES hu) hpde
  ghost := rfl
  failed := rfl

/-- The same, in a page table that has just been put in. -/
theorem NewTable.mapped {v₁ v₂ : View Frame Page G} {t word : ℕ} (hu : u < pages)
    (hv : Holds lay v d F) (habsent : present (v.mem d (u / 1024)) = false)
    (hnew : NewTable lay v v₁ d (u / 1024) t) (h : Mapped lay v₁ v₂ d u word) :
    Mapped lay v v₂ d u word where
  absent := by simp [pte_of_absent habsent]
  entries u' hu' := by rw [h.entries u' hu', hnew.entries hv habsent hu']
  newTable := by
    have htables := hnew.tables_eq (div_lt_NPDENTRIES hu) habsent
    obtain ⟨T, hT, hTowned⟩ := h.newTable
    refine ⟨T + {t}, ?_, ?_⟩
    · rw [hT, htables, add_assoc]
    · rw [hTowned, hnew.owned, add_assoc]
  dir i hi := by rw [h.dir i hi, hnew.dir, Function.update_of_ne hi]
  nodup := h.nodup
  arena := h.arena
  data p hp hd htables := by
    have hpt : p ≠ t := by
      rintro rfl
      exact hnew.new hp
    have hmem : p ∉ tables v₁.mem d := by
      rw [hnew.tables_eq (div_lt_NPDENTRIES hu) habsent, Multiset.singleton_add, Multiset.mem_cons]
      exact not_or.mpr ⟨hpt, htables⟩
    rw [h.data p (by rw [hnew.owned]; exact Multiset.mem_add.mpr (Or.inr hp)) hd hmem,
      hnew.rest p hd hpt]
  ghost := h.ghost.trans hnew.ghost
  failed := h.failed.trans hnew.failed

/-- One round of the loop of `mappages`. -/
theorem safe_mapFrom {Q : Bool → View Frame Page G → Prop} {perm n a pa : ℕ}
    (hL : L.arena = lay.Arena) (hv : Holds lay v d F) (ha : a < 2 ^ 32)
    (hnone : L.enough ≤ v.owned.card → Q false { v with failed := true })
    (hremap : present (pte v.mem d (a / PGSIZE)) = true → L.panics v)
    (hmapped : ∀ v', Mapped lay v v' d (a / PGSIZE) (pa ||| perm ||| PTE_P) →
      L.Safe (mapFrom d perm n (uint (a + PGSIZE)) (uint (pa + PGSIZE)) : Call σ R _) Q v') :
    L.Safe (mapFrom d perm (n + 1) a pa : Call σ R _) Q v := by
  have hpage := page_lt ha
  simp only [mapFrom, walkpgdir, Comp.bind_eq, safe_bind, safe_load, PDX_eq, PTX_eq]
  refine ⟨hv.dir_mem, ?_⟩
  by_cases hpde : present (v.mem d (a / PGSIZE / 1024)) = true
  · -- the page table is there
    have htable := hv.table_mem hpage hpde
    simp only [hpde, if_true, Comp.pure_eq, safe_ret, safe_bind, safe_load]
    refine ⟨htable, ?_⟩
    rw [← pte_of_present hpde]
    by_cases hpte : present (pte v.mem d (a / PGSIZE)) = true
    · simpa [hpte] using hremap hpte
    · have habsent : present (pte v.mem d (a / PGSIZE)) = false := by simpa using hpte
      simp only [habsent, Bool.false_eq_true, if_false, safe_bind, safe_store]
      exact ⟨htable, hmapped _ (hv.store hpage hpde habsent)⟩
  · -- a page table is allocated
    have hpde : present (v.mem d (a / PGSIZE / 1024)) = false := by simpa using hpde
    simp only [hpde, Bool.false_eq_true, if_false, if_true, safe_bind, safe_kalloc]
    refine ⟨hnone, fun t x harena hnew => ?_⟩
    rw [hL] at harena
    have htd : t ≠ d := fun heq => hnew (heq ▸ hv.dir_mem)
    simp only [safe_bind, safe_memset, safe_store, Comp.pure_eq, safe_ret, safe_load]
    refine ⟨Multiset.mem_cons_self t _, Multiset.mem_cons_of_mem hv.dir_mem,
      Multiset.mem_cons_self t _, ?_⟩
    generalize hm₁ : Function.update (Function.update (Function.update v.mem t x) t fun _ => 0) d
      _ = m₁
    have hnew₁ : NewTable lay v { v with owned := t ::ₘ v.owned, mem := m₁ } d
        (a / PGSIZE / 1024) t := by
      refine ⟨?_, ?_, fun p hpd hpt => ?_, hnew, harena, (Multiset.singleton_add t _).symm,
        rfl, rfl⟩
      · simp [← hm₁, htd.symm]
      · simp [← hm₁, htd]
      · simp [← hm₁, hpd, hpt]
    have hv₁ := hnew₁.holds hv (div_lt_NPDENTRIES hpage) hpde
    have habsent := hnew₁.entries hv hpde hpage
    rw [pte_of_absent hpde] at habsent
    have hdir : m₁ d (a / PGSIZE / 1024) = t * PGSIZE ||| PTE_P ||| PTE_W ||| PTE_U := by
      rw [show m₁ d = _ from hnew₁.dir, Function.update_self]
    have hpresent : present (m₁ d (a / PGSIZE / 1024)) = true := by rw [hdir, present_pde]
    have hstore : Mapped lay _ _ d (a / PGSIZE) (pa ||| perm ||| PTE_P) :=
      hv₁.store hpage hpresent (by rw [habsent, present_zero])
    dsimp only at hstore
    rw [hdir, PTE_ADDR_pde] at hstore
    have hempty : m₁ t (a / PGSIZE % 1024) = 0 := congrFun hnew₁.empty _
    simp only [hempty, present_zero, Bool.false_eq_true, if_false, safe_bind, safe_store]
    exact ⟨Multiset.mem_cons_self t _, hmapped _ (hnew₁.mapped hpage hv hpde hstore)⟩

/-! ## `deallocuvm` -/

/-- The user page `u` has been freed and its entry cleared. -/
structure Cleared (lay : Layout) (v v' : View Frame Page G) (d : Frame) (F : Multiset Frame)
    (u : ℕ) : Prop where
  holds : Holds lay v' d F
  sub : v'.owned ≤ v.owned
  entries : ∀ u' < pages, pte v'.mem d u' = if u' = u then 0 else pte v.mem d u'
  dir : v'.mem d = v.mem d
  data : ∀ p ∈ v'.owned, p ∉ tables v.mem d → v'.mem p = v.mem p
  ghost : v'.ghost = v.ghost
  failed : v'.failed = v.failed

/-- The user pages from `lo` up to `hi` have been freed. -/
structure Unmapped (lay : Layout) (v v' : View Frame Page G) (d : Frame) (F : Multiset Frame)
    (lo hi : ℕ) : Prop where
  holds : Holds lay v' d F
  sub : v'.owned ≤ v.owned
  entries : ∀ u < pages, pte v'.mem d u =
    if lo ≤ u ∧ u < hi ∧ present (pte v.mem d u) = true then 0 else pte v.mem d u
  dir : v'.mem d = v.mem d
  data : ∀ p ∈ v'.owned, p ∉ tables v.mem d → v'.mem p = v.mem p
  ghost : v'.ghost = v.ghost
  failed : v'.failed = v.failed

namespace Unmapped

variable {lo mid hi : ℕ}

theorem refl (hv : Holds lay v d F) (hle : hi ≤ lo) : Unmapped lay v v d F lo hi where
  holds := hv
  sub := le_rfl
  entries u _ := by rw [if_neg (by omega)]
  dir := rfl
  data _ _ _ := rfl
  ghost := rfl
  failed := rfl

/-- Pages that are not there need not be freed. -/
theorem extend (h : Unmapped lay v v' d F mid hi)
    (habsent : ∀ u, lo ≤ u → u < mid → present (pte v.mem d u) = false) (hle : lo ≤ mid) :
    Unmapped lay v v' d F lo hi where
  holds := h.holds
  sub := h.sub
  entries u hu := by
    rw [h.entries u hu]
    by_cases hmid : mid ≤ u
    · simp [hmid, hle.trans hmid]
    · by_cases hlo : lo ≤ u
      · simp [hmid, hlo, habsent u hlo (by omega)]
      · simp [hmid, hlo]
  dir := h.dir
  data := h.data
  ghost := h.ghost
  failed := h.failed

theorem clear {v₁ : View Frame Page G} (h : Unmapped lay v₁ v' d F (lo + 1) hi)
    (hclear : Cleared lay v v₁ d F lo) (hlo : lo < hi)
    (hpresent : present (pte v.mem d lo) = true) : Unmapped lay v v' d F lo hi where
  holds := h.holds
  sub := h.sub.trans hclear.sub
  entries u hu := by
    rw [h.entries u hu, hclear.entries u hu]
    by_cases heq : u = lo
    · simp [heq, hlo, hpresent]
    · have hiff : lo + 1 ≤ u ↔ lo ≤ u := by omega
      simp [heq, hiff]
  dir := h.dir.trans hclear.dir
  data p hp htable := by
    have htable₁ : p ∉ tables v₁.mem d := by rwa [tables_congr hclear.dir]
    rw [h.data p hp htable₁, hclear.data p (Multiset.mem_of_le h.sub hp) htable]
  ghost := h.ghost.trans hclear.ghost
  failed := h.failed.trans hclear.failed

end Unmapped

/-- `kfree(v); *pte = 0;` -/
theorem Holds.clear (hv : Holds lay v d F) (hu : u < userPages)
    (hpresent : present (pte v.mem d u) = true) {m₁ : Frame → Page}
    (hm₁ : m₁ = Function.update v.mem (PTE_ADDR (pte v.mem d u)) fun _ => 0x01010101) :
    Cleared lay v { v with
      owned := v.owned.erase (PTE_ADDR (pte v.mem d u))
      mem := Function.update m₁ (PTE_ADDR (v.mem d (u / 1024)))
        (Function.update (m₁ (PTE_ADDR (v.mem d (u / 1024)))) (u % 1024) 0) } d F u := by
  have hpage := hu.trans userPages_lt
  have hpde : present (v.mem d (u / 1024)) = true := by
    by_contra hpde
    rw [pte_of_absent (by simpa using hpde)] at hpresent
    simp at hpresent
  obtain ⟨hpd, hptable⟩ := user_notMem hv.space_nodup (mem_users hu hpresent)
  have hsame : ∀ p, p ≠ PTE_ADDR (pte v.mem d u) → m₁ p = v.mem p := fun p hp => by
    rw [hm₁, Function.update_of_ne hp]
  have hd : m₁ d = v.mem d := hsame d hpd.symm
  have htables : ∀ p ∈ tables v.mem d, m₁ p = v.mem p := fun p hp =>
    hsame p fun heq => hptable (heq ▸ hp)
  have htable : PTE_ADDR (v.mem d (u / 1024)) ∈ tables v.mem d :=
    mem_tables (div_lt_NPDENTRIES hpage) hpde
  have hne : d ≠ PTE_ADDR (v.mem d (u / 1024)) := fun heq => by
    rw [← heq] at htable
    exact dir_notMem_tables hv.space_nodup htable
  have hnodup₁ : (space m₁ d).Nodup := by
    rw [space_congr hd htables]
    exact hv.space_nodup
  have hpde₁ : present (m₁ d (u / 1024)) = true := by rw [hd, hpde]
  generalize hm₂ : Function.update m₁ (PTE_ADDR (v.mem d (u / 1024)))
    (Function.update (m₁ (PTE_ADDR (v.mem d (u / 1024)))) (u % 1024) 0) = m₂
  have hentries : ∀ u' < pages, pte m₂ d u' = if u' = u then 0 else pte v.mem d u' := by
    intro u' hu'
    have hstore := pte_store (w := 0) hnodup₁ hpage hpde₁ hu'
    rwa [hd, hm₂, pte_congr hd htables hu'] at hstore
  have hdir : m₂ d = v.mem d := by rw [← hm₂, Function.update_of_ne hne, hd]
  have husers : users m₂ d + {PTE_ADDR (pte v.mem d u)} = users v.mem d := by
    have hchange : users m₂ d + entry (pte v.mem d u) = _ := users_change hu fun u' hu' hne => by
      rw [hentries u' (hu'.trans userPages_lt), if_neg hne]
    rwa [hentries u hpage, if_pos rfl, entry_zero, add_zero, entry_of_present hpresent] at hchange
  have howned : v.owned = PTE_ADDR (pte v.mem d u) ::ₘ (F + space m₂ d) := by
    rw [hv.owned, space, space, tables_congr hdir, ← husers]
    simp only [← Multiset.singleton_add]
    ac_rfl
  have hnodup := hv.nodup
  have harena := hv.arena
  rw [howned] at hnodup harena
  rw [howned, Multiset.erase_cons_head]
  refine ⟨⟨rfl, (Multiset.nodup_cons.mp hnodup).2, fun p hp => ?_⟩, ?_, hentries, hdir,
    fun p hp htable' => ?_, rfl, rfl⟩
  · exact harena p (Multiset.mem_cons_of_mem hp)
  · rw [howned]
    exact Multiset.le_cons_self _ _
  · have hpne : p ≠ PTE_ADDR (pte v.mem d u) := by
      rintro rfl
      exact (Multiset.nodup_cons.mp hnodup).1 hp
    have htne : p ≠ PTE_ADDR (v.mem d (u / 1024)) := by
      rintro rfl
      exact htable' htable
    show m₂ p = v.mem p
    rw [← hm₂, Function.update_of_ne htne, hsame p hpne]

/-- The loop of `deallocuvm` from page `k` on. -/
theorem safe_deallocFrom {Q : Unit → View Frame Page G → Prop} {oldsz k hi : ℕ}
    (hhi : ∀ u, u < hi ↔ u * PGSIZE < oldsz) (huser : hi ≤ userPages) (hv : Holds lay v d F)
    (hQ : ∀ v', Unmapped lay v v' d F k hi → Q () v') :
    L.Safe (deallocFrom lay d oldsz (k * PGSIZE) : Call σ R _) Q v := by
  induction hn : hi - k using Nat.strong_induction_on generalizing k v with
  | _ n ih =>
  rw [deallocFrom]
  by_cases hk : k < hi
  · have hpage : k < pages := (hk.trans_le huser).trans userPages_lt
    have hcancel : k * PGSIZE / PGSIZE = k := Nat.mul_div_cancel k (by decide)
    rw [if_pos ((hhi k).mp hk)]
    simp only [Comp.bind_eq, safe_bind]
    refine safe_walkpgdir hv.dir_mem (fun hpde => ?_) fun hpde => ?_
    · -- no page table: on to the next entry of the page directory
      rw [PDX_eq, hcancel] at hpde
      have hnext : (PDX (k * PGSIZE) + 1) * 2 ^ 22 - PGSIZE + PGSIZE =
          (k / 1024 + 1) * 1024 * PGSIZE := by
        rw [PDX_eq, hcancel]
        unfold PGSIZE
        omega
      simp only [hnext]
      refine ih (hi - (k / 1024 + 1) * 1024) (by omega) hv (fun v' hv' => ?_) rfl
      refine hQ v' (hv'.extend (fun u hlo hu => ?_) (by omega))
      rw [pte_of_absent (by rwa [show u / 1024 = k / 1024 by omega]), present_zero]
    · rw [PDX_eq, hcancel] at hpde ⊢
      rw [PTX_eq, hcancel]
      simp only [safe_bind, safe_load]
      refine ⟨hv.table_mem hpage hpde, ?_⟩
      rw [← pte_of_present hpde]
      have hnext : k * PGSIZE + PGSIZE = (k + 1) * PGSIZE := (Nat.add_one_mul k PGSIZE).symm
      by_cases hpresent : present (pte v.mem d k) = true
      · have hmem := hv.user_mem (hk.trans_le huser) hpresent
        have harena := hv.arena _ hmem
        have hzero : PTE_ADDR (pte v.mem d k) ≠ 0 := harena.pos.ne'
        have hclear := hv.clear (hk.trans_le huser) hpresent rfl
        have htable : PTE_ADDR (v.mem d (k / 1024)) ∈ v.owned.erase (PTE_ADDR (pte v.mem d k)) := by
          refine (Multiset.mem_erase_of_ne ?_).mpr (hv.table_mem hpage hpde)
          intro heq
          have htable := mem_tables (div_lt_NPDENTRIES hpage) hpde
          exact (user_notMem hv.space_nodup (mem_users (hk.trans_le huser) hpresent)).2
            (heq ▸ htable)
        rw [if_pos hpresent, if_neg hzero]
        simp only [safe_bind]
        refine safe_kfree hmem harena ?_
        rw [hnext]
        simp only [safe_store]
        exact ⟨htable, ih (hi - (k + 1)) (by omega) hclear.holds
          (fun v' hv' => hQ v' (hv'.clear hclear hk hpresent)) rfl⟩
      · rw [if_neg hpresent, hnext]
        refine ih (hi - (k + 1)) (by omega) hv (fun v' hv' => ?_) rfl
        refine hQ v' (hv'.extend (fun u hlo hu => ?_) (by omega))
        rw [show u = k by omega]
        simpa using hpresent
  · rw [if_neg (fun h => hk ((hhi k).mpr h))]
    exact hQ v (Unmapped.refl hv (by omega))

/-- The pages that `sz` bytes take. -/
def npages (sz : ℕ) : ℕ := (sz + PGSIZE - 1) / PGSIZE

theorem lt_npages {sz : ℕ} : u < npages sz ↔ u * PGSIZE < sz := by
  unfold npages PGSIZE
  omega

theorem npages_le {sz : ℕ} (hsz : sz ≤ KERNBASE) : npages sz ≤ userPages := by
  unfold npages userPages
  unfold KERNBASE at hsz
  unfold PGSIZE
  omega

theorem npages_mono {sz sz' : ℕ} (h : sz ≤ sz') : npages sz ≤ npages sz' := by
  unfold npages
  exact Nat.div_le_div_right (by omega)

theorem safe_deallocuvm {Q : ℕ → View Frame Page G → Prop} {oldsz newsz : ℕ}
    (hold : oldsz ≤ KERNBASE) (hv : Holds lay v d F)
    (hQ : ∀ v', Unmapped lay v v' d F (npages newsz) (npages oldsz) →
      Q (if newsz ≥ oldsz then oldsz else newsz) v') :
    L.Safe (deallocuvm lay d oldsz newsz : Call σ R _) Q v := by
  rw [deallocuvm]
  by_cases hle : newsz ≥ oldsz
  · rw [if_pos hle]
    rw [if_pos hle] at hQ
    exact hQ v (Unmapped.refl hv (npages_mono hle))
  · rw [if_neg hle]
    rw [if_neg hle] at hQ
    simp only [Comp.bind_eq, safe_bind, Comp.pure_eq, safe_ret]
    exact safe_deallocFrom (fun _ => lt_npages) (npages_le hold) hv hQ

/-! ## `freevm` -/

/-- The call owns nothing but `F` any more. -/
structure Freed (v v' : View Frame Page G) (F : Multiset Frame) : Prop where
  owned : v'.owned = F
  data : ∀ p ∈ F, v'.mem p = v.mem p
  ghost : v'.ghost = v.ghost
  failed : v'.failed = v.failed

theorem Freed.trans {v₁ : View Frame Page G} {F₁ : Multiset Frame} (h : Freed v₁ v' F)
    (h₁ : Freed v v₁ F₁) (hle : F ≤ F₁) : Freed v v' F :=
  ⟨h.owned, fun p hp => (h.data p hp).trans (h₁.data p (Multiset.mem_of_le hle hp)),
    h.ghost.trans h₁.ghost, h.failed.trans h₁.failed⟩

/-- A page in hand is freed. -/
theorem freed_kfree {p w : ℕ} (hnodup : v.owned.Nodup) (howned : v.owned = {p} + F) :
    Freed v { v with
      owned := v.owned.erase p
      mem := Function.update v.mem p fun _ => w } F := by
  rw [howned, Multiset.singleton_add] at hnodup
  refine ⟨by rw [howned, Multiset.singleton_add, Multiset.erase_cons_head], fun q hq => ?_,
    rfl, rfl⟩
  refine Function.update_of_ne ?_ _ _
  rintro rfl
  exact (Multiset.nodup_cons.mp hnodup).1 hq

/-- The pages that some entries of a page directory name. -/
def named (m : Frame → Page) (d : Frame) (l : List ℕ) : Multiset Frame :=
  (l.map fun i => entry (m d i)).sum

theorem tables_eq_named (m : Frame → Page) : tables m d = named m d (List.range NPDENTRIES) := by
  rw [tables, named, Finset.sum, Finset.range_val, Multiset.range, Multiset.map_coe,
    Multiset.sum_coe]

/-- The loop of `freevm`. -/
theorem safe_freeTables {Q : Unit → View Frame Page G → Prop} {l : List ℕ}
    (howned : v.owned = named v.mem d l + d ::ₘ F) (hnodup : v.owned.Nodup)
    (harena : ∀ p ∈ v.owned, lay.Arena p) (hQ : ∀ v', Freed v v' (d ::ₘ F) → Q () v') :
    L.Safe (freeTables lay d l : Call σ R _) Q v := by
  induction l generalizing v with
  | nil => exact hQ v ⟨by rw [howned]; exact zero_add _, fun _ _ => rfl, rfl, rfl⟩
  | cons i rest ih =>
      have hd : d ∈ v.owned := by simp [howned]
      simp only [freeTables, Comp.bind_eq, safe_bind, safe_load]
      refine ⟨hd, ?_⟩
      by_cases hpde : present (v.mem d i) = true
      · have hcons : v.owned = {PTE_ADDR (v.mem d i)} + (named v.mem d rest + d ::ₘ F) := by
          rw [howned, named, List.map_cons, List.sum_cons, entry_of_present hpde, named, add_assoc]
        have hmem : PTE_ADDR (v.mem d i) ∈ v.owned := by simp [hcons]
        have hfreed := freed_kfree (w := 0x01010101) hnodup hcons
        rw [if_pos hpde, safe_bind]
        refine safe_kfree hmem (harena _ hmem) (ih ?_ ?_ ?_ fun v' hv' => ?_)
        · rw [hfreed.owned, named, named, hfreed.data d (by simp)]
        · exact hnodup.erase _
        · exact fun p hp => harena p (Multiset.mem_of_mem_erase hp)
        · exact hQ v' (hv'.trans hfreed (Multiset.le_add_left _ _))
      · rw [if_neg hpde]
        refine ih ?_ hnodup harena hQ
        rw [howned, named, List.map_cons, List.sum_cons, entry_of_absent (by simpa using hpde),
          zero_add, named]

theorem safe_freevm {Q : Unit → View Frame Page G → Prop} (hv : Holds lay v d F)
    (hQ : ∀ v', Freed v v' F → Q () v') : L.Safe (freevm lay d : Call σ R _) Q v := by
  simp only [freevm, Comp.bind_eq, safe_bind]
  refine safe_deallocuvm le_rfl hv fun v₁ hv₁ => ?_
  have hall : npages KERNBASE = userPages := by
    unfold npages KERNBASE PGSIZE userPages
    rfl
  have husers : users v₁.mem d = 0 := by
    rw [users]
    refine Finset.sum_eq_zero fun u hu => entry_of_absent ?_
    have hu := Finset.mem_range.mp hu
    rw [hv₁.entries u (hu.trans userPages_lt), hall]
    by_cases hpresent : present (pte v.mem d u) = true
    · rw [if_pos ⟨Nat.zero_le u, hu, hpresent⟩, present_zero]
    · rw [if_neg fun h => hpresent h.2.2]
      simpa using hpresent
  have howned : v₁.owned = named v₁.mem d (List.range NPDENTRIES) + d ::ₘ F := by
    rw [hv₁.holds.owned, space, husers, add_zero, ← tables_eq_named]
    simp only [← Multiset.singleton_add]
    ac_rfl
  have hdata : ∀ p ∈ F, v₁.mem p = v.mem p := fun p hp => by
    refine hv₁.data p (by simp [howned, hp]) fun htable => ?_
    exact hv.notMem_space hp (mem_space.mpr (Or.inr (Or.inl htable)))
  refine safe_freeTables howned hv₁.holds.nodup hv₁.holds.arena fun v₂ hv₂ => ?_
  have hd : d ∈ v₂.owned := by simp [hv₂.owned]
  have hnodup₂ : v₂.owned.Nodup := by
    rw [hv₂.owned]
    exact Multiset.nodup_of_le (by rw [howned]; exact Multiset.le_add_left _ _) hv₁.holds.nodup
  refine safe_kfree hd (hv₁.holds.arena d hv₁.holds.dir_mem) (hQ _ ?_)
  have hfreed := freed_kfree (w := 0x01010101) hnodup₂
    (hv₂.owned.trans (Multiset.singleton_add d F).symm)
  refine ⟨hfreed.owned, fun p hp => ?_, ?_, ?_⟩
  · rw [hfreed.data p hp, hv₂.data p (Multiset.mem_cons_of_mem hp), hdata p hp]
  · exact hv₂.ghost.trans hv₁.ghost
  · exact hv₂.failed.trans hv₁.failed

end Xv6.Vm
