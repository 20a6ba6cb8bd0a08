import Xv6.Vm.Exec
import Xv6.Vm.Sample

/-!
# A failed `exec` is clean

While `exec` builds the new address space, it is `Building`: the user pages are those
below the size, the kernel half is complete, and the pages of the caller are as they
were.  Each function that `exec` calls keeps this, so that at the label `bad`
`freevm` gives back exactly what has been allocated.

`copyout` is the exception.  Where the stack pointer has wrapped around below
`DEVSPACE`, there is no page table, and what it writes to is up to the caller.
-/

namespace Xv6.Vm

open Allocation Logic

variable {lay : Layout} {v v' : View Frame Page Curproc} {d u sz : ℕ} {F : Multiset Frame}
variable {m₀ : Frame → Page} {panics : View Frame Page Curproc → Prop} {enough : ℕ}
variable {answers : Reply → Prop}

/-! ## The address space under construction -/

structure Building (lay : Layout) (m₀ : Frame → Page) (v : View Frame Page Curproc) (d : Frame)
    (F : Multiset Frame) (sz : ℕ) : Prop where
  holds : Holds lay v d F
  kernel : KernelHalf v.mem d
  covers : Covers v.mem d sz
  data : ∀ p ∈ F, v.mem p = m₀ p

theorem pde_of_present {m : Frame → Page} (h : present (pte m d u) = true) :
    present (m d (u / 1024)) = true := by
  by_contra hpde
  rw [pte_of_absent (by simpa using hpde), present_zero] at h
  exact Bool.false_ne_true h

theorem KernelHalf.congr {m m' : Frame → Page} (h : KernelHalf m d)
    (hpte : ∀ u < pages, userPages ≤ u → pte m' d u = pte m d u)
    (hdir : ∀ i, userPages / 1024 ≤ i → m' d i = m d i) : KernelHalf m' d where
  made u hu := by
    rw [hpte u (kernelPages_lt hu) (kernelPages_le hu)]
    exact h.made u hu
  gap i hlo hhi := by
    have hi : userPages / 1024 ≤ i := by
      refine le_trans ?_ hlo
      unfold userPages
      decide
    rw [hdir i hi]
    exact h.gap i hlo hhi

namespace Building

theorem user_mem (h : Building lay m₀ v d F sz) (hu : u < npages sz) :
    PTE_ADDR (pte v.mem d u) ∈ users v.mem d :=
  have huser := hu.trans_le (npages_le h.covers.le)
  mem_users huser ((h.covers.mapped u huser).mpr hu)

theorem pde (h : Building lay m₀ v d F sz) (hu : u < npages sz) :
    present (v.mem d (u / 1024)) = true :=
  pde_of_present ((h.covers.mapped u (hu.trans_le (npages_le h.covers.le))).mpr hu)

theorem owned_of_user (h : Building lay m₀ v d F sz) {p : Frame} (hp : p ∈ users v.mem d) :
    p ∈ v.owned :=
  Multiset.mem_of_le h.holds.space_le (mem_space.mpr (Or.inr (Or.inr hp)))

/-- Neither the page directory nor a page table changes. -/
theorem congr (h : Building lay m₀ v d F sz) {m m₁ : Frame → Page} (hd : m d = v.mem d)
    (htables : ∀ q ∈ tables v.mem d, m q = v.mem q) (hdata : ∀ q ∈ F, m q = m₁ q) :
    Building lay m₁ { v with mem := m } d F sz := by
  have hpte : ∀ u < pages, pte m d u = pte v.mem d u := fun u hu => pte_congr hd htables hu
  refine ⟨⟨?_, h.holds.nodup, h.holds.arena⟩, h.kernel.congr (fun u hu _ => hpte u hu)
    (fun i _ => congrFun hd i), ⟨h.covers.le, fun u hu => ?_⟩, hdata⟩
  · rw [space_congr hd htables]
    exact h.holds.owned
  · rw [hpte u (hu.trans userPages_lt)]
    exact h.covers.mapped u hu

/-- A user page is written to. -/
theorem modify (h : Building lay m₀ v d F sz) {p : Frame} (hp : p ∈ users v.mem d) (page : Page) :
    Building lay m₀ { v with mem := Function.update v.mem p page } d F sz := by
  obtain ⟨hpd, hpt⟩ := user_notMem h.holds.space_nodup hp
  refine h.congr (Function.update_of_ne hpd.symm _ _) (fun q hq => ?_) fun q hq => ?_
  · exact Function.update_of_ne (by rintro rfl; exact hpt hq) _ _
  · have hne : q ≠ p := fun heq =>
      h.holds.notMem_space (heq ▸ hq) (mem_space.mpr (Or.inr (Or.inr hp)))
    exact (Function.update_of_ne hne _ _).trans (h.data q hq)

theorem grown (h : Building lay m₀ v d F sz) {sz' : ℕ} (hle : sz ≤ sz') (hsz' : sz' ≤ KERNBASE)
    (hgrown : Grown lay v v' d F (npages sz) (npages sz')) : Building lay m₀ v' d F sz' where
  holds := hgrown.holds
  kernel := h.kernel.congr (fun u hu hlo => hgrown.others u hu fun hin =>
    absurd (hin.2.trans_le (npages_le hsz')) (by omega)) hgrown.dir
  covers := h.covers.grown hle hsz' hgrown
  data p hp := (hgrown.keep h.holds hp).trans (h.data p hp)

end Building

/-- What is needed to give everything back. -/
structure Held (lay : Layout) (m₀ : Frame → Page) (v : View Frame Page Curproc) (d : Frame)
    (F : Multiset Frame) : Prop where
  holds : Holds lay v d F
  data : ∀ p ∈ F, v.mem p = m₀ p

theorem Building.held (h : Building lay m₀ v d F sz) : Held lay m₀ v d F := ⟨h.holds, h.data⟩

/-! ## `allocuvm`, `loaduvm` and `clearpteu` -/

abbrev execLogic (lay : Layout) (answers : Reply → Prop) (enough : ℕ)
    (panics : View Frame Page Curproc → Prop) : Logic Frame Page Curproc Reply Curproc :=
  sequential lay.Arena answers enough panics

theorem Building.safe_allocuvm {Q : ℕ → View Frame Page Curproc → Prop} {newsz : ℕ}
    (h : Building lay m₀ v d F sz)
    (hzero : ∀ v', Held lay m₀ v' d F → v'.ghost = v.ghost → Q 0 v')
    (hsome : ∀ v', max sz newsz ≠ 0 → Building lay m₀ v' d F (max sz newsz) →
      v'.ghost = v.ghost → Q (max sz newsz) v') :
    (execLogic lay answers enough panics).Safe
      (allocuvm lay d sz newsz : Call Curproc Reply ℕ) Q v := by
  refine Vm.safe_allocuvm rfl h.holds (fun hlt u hlo hu => ?_) (fun _ => ?_) (fun hless => ?_)
    (fun v' _ hv' => ?_) fun hlt hle v' hv' _ => ?_
  · exact h.covers.absent (hu.trans_le (npages_le hlt.le)) hlo
  · exact hzero v h.held rfl
  · have hmax : max sz newsz = sz := max_eq_left hless.le
    rw [hmax] at hsome
    exact hsome v (by omega) h rfl
  · refine hzero v' ⟨hv'.holds, fun p hp => ?_⟩ hv'.ghost
    exact (hv'.data p (Multiset.mem_add.mpr (Or.inl hp))).trans (h.data p hp)
  · have hbuilding := h.grown hle hlt.le hv'
    have hmax : max sz newsz = newsz := max_eq_right hle
    rw [hmax] at hsome
    by_cases hnew : newsz = 0
    · subst hnew
      exact hzero v' hbuilding.held hv'.ghost
    · exact hsome v' hnew hbuilding hv'.ghost

theorem user_iff {w : ℕ} : user w = true ↔ w / 4 % 2 = 1 := by
  simp [user, Nat.testBit_eq_decide_div_mod_eq]

theorem present_clearUser (w : ℕ) : present (clearUser w) = present w := by
  unfold clearUser
  split
  · rename_i huser
    rw [user_iff] at huser
    have hmod : (w - PTE_U) % 2 = w % 2 := by
      unfold PTE_U
      omega
    simp [present, Nat.testBit_zero, hmod]
  · rfl

theorem PTE_ADDR_clearUser (w : ℕ) : PTE_ADDR (clearUser w) = PTE_ADDR w := by
  unfold clearUser
  split
  · rename_i huser
    rw [user_iff] at huser
    have hdiv : (w - 4) / 4096 = w / 4096 := by omega
    exact hdiv
  · rfl

/-- The user bit of the entry for `u` has been cleared. -/
structure UserCleared (lay : Layout) (v v' : View Frame Page Curproc) (d : Frame)
    (F : Multiset Frame) (u : ℕ) : Prop where
  holds : Holds lay v' d F
  entries : ∀ u' < pages, pte v'.mem d u' =
    if u' = u then clearUser (pte v.mem d u) else pte v.mem d u'
  dir : v'.mem d = v.mem d
  users : ∀ p ∈ users v.mem d, v'.mem p = v.mem p
  data : ∀ p ∈ F, v'.mem p = v.mem p

theorem Holds.clearUser (hv : Holds lay v d F) (hu : u < pages)
    (hpde : present (v.mem d (u / 1024)) = true) :
    UserCleared lay v { v with
      mem := Function.update v.mem (PTE_ADDR (v.mem d (u / 1024)))
        (Function.update (v.mem (PTE_ADDR (v.mem d (u / 1024)))) (u % 1024)
          (clearUser (pte v.mem d u))) } d F u := by
  have hpte := fun u' (hu' : u' < pages) =>
    pte_store (w := Vm.clearUser (pte v.mem d u)) hv.space_nodup hu hpde hu'
  have htable := mem_tables (div_lt_NPDENTRIES hu) hpde
  have hdir : Function.update v.mem (PTE_ADDR (v.mem d (u / 1024)))
      (Function.update (v.mem (PTE_ADDR (v.mem d (u / 1024)))) (u % 1024)
        (Vm.clearUser (pte v.mem d u))) d = v.mem d :=
    Function.update_of_ne (hv.dir_ne hu hpde) _ _
  generalize hm' : Function.update v.mem (PTE_ADDR (v.mem d (u / 1024))) _ = m' at hpte hdir ⊢
  have hentry : entry (Vm.clearUser (pte v.mem d u)) = entry (pte v.mem d u) := by
    rw [entry, entry, present_clearUser, PTE_ADDR_clearUser]
  have husers : users m' d = users v.mem d := by
    refine Finset.sum_congr rfl fun u' hu' => ?_
    rw [hpte u' ((Finset.mem_range.mp hu').trans userPages_lt)]
    split
    · rename_i heq
      rw [heq, hentry]
    · rfl
  refine ⟨⟨?_, hv.nodup, hv.arena⟩, hpte, hdir, fun p hp => ?_, fun p hp => ?_⟩
  · show v.owned = F + space m' d
    rw [space, tables_congr hdir, husers]
    exact hv.owned
  · have hne : p ≠ PTE_ADDR (v.mem d (u / 1024)) := fun heq =>
      (user_notMem hv.space_nodup hp).2 (heq ▸ htable)
    show m' p = v.mem p
    rw [← hm', Function.update_of_ne hne]
  · have hne : p ≠ PTE_ADDR (v.mem d (u / 1024)) := fun heq =>
      hv.notMem_space hp (mem_space.mpr (Or.inr (Or.inl (heq ▸ htable))))
    show m' p = v.mem p
    rw [← hm', Function.update_of_ne hne]

theorem Building.clearUser (h : Building lay m₀ v d F sz) (hu : u < npages sz)
    (hcleared : UserCleared lay v v' d F u) : Building lay m₀ v' d F sz where
  holds := hcleared.holds
  kernel := by
    have huser := hu.trans_le (npages_le h.covers.le)
    refine h.kernel.congr (fun u' hu' hlo => ?_) fun i _ => congrFun hcleared.dir i
    rw [hcleared.entries u' hu', if_neg (by omega)]
  covers := by
    refine ⟨h.covers.le, fun u' hu' => ?_⟩
    rw [← h.covers.mapped u' hu', hcleared.entries u' (hu'.trans userPages_lt)]
    split
    · rename_i heq
      rw [heq, present_clearUser]
    · rfl
  data p hp := (hcleared.data p hp).trans (h.data p hp)

theorem Building.safe_clearpteu {Q : Unit → View Frame Page Curproc → Prop}
    (h : Building lay m₀ v d F sz) (hu : u < npages sz)
    (hQ : ∀ v', UserCleared lay v v' d F u → Building lay m₀ v' d F sz → v'.ghost = v.ghost →
      Q () v') :
    (execLogic lay answers enough panics).Safe (clearpteu d (u * PGSIZE)) Q v := by
  have hcancel : u * PGSIZE / PGSIZE = u := Nat.mul_div_cancel u (by decide)
  have hpages := (hu.trans_le (npages_le h.covers.le)).trans userPages_lt
  have hpde := h.pde hu
  have htable := h.holds.table_mem hpages hpde
  rw [clearpteu, Comp.bind_eq, safe_bind]
  refine safe_walkpgdir h.holds.dir_mem (fun habs => ?_) fun _ => ?_
  · rw [PDX_eq, hcancel, hpde] at habs
    simp at habs
  rw [PDX_eq, PTX_eq, hcancel]
  dsimp only
  rw [Comp.bind_eq, safe_bind, safe_load]
  refine ⟨htable, ?_⟩
  rw [← pte_of_present hpde, safe_store]
  have hcleared := h.holds.clearUser hpages hpde
  exact ⟨htable, hQ _ hcleared (h.clearUser hu hcleared) rfl⟩

/-! ## `copyout` -/

theorem uint_lt (n : ℕ) : uint n < 2 ^ 32 := Nat.mod_lt _ (by decide)

/-- The word at user address 0 of the caller does not pass for the entry of a user page. -/
def NullSafe (m : Frame → Page) (d : Frame) : Prop :=
  present (pte m d 0) = true ∧
    ¬(present (m (PTE_ADDR (pte m d 0)) 0) = true ∧ user (m (PTE_ADDR (pte m d 0)) 0) = true)

/-- The kernel's pages are mapped in the kernel half, and between them there are no page
tables. -/
theorem KernelHalf.not_user {m : Frame → Page} (h : KernelHalf m d) (hu : u < pages)
    (hpde : present (m d (u / 1024)) = true) (huser : user (pte m d u) = true) : u < userPages := by
  by_contra hle
  by_cases hkernel : u ∈ kernelPages
  · rw [(h.made u hkernel).2] at huser
    exact Bool.false_ne_true huser
  · have hgap : (KERNBASE + PHYSTOP) / 2 ^ 22 ≤ u / 1024 ∧ u / 1024 < DEVSPACE / 2 ^ 22 := by
      simp only [kernelPages, KERNBASE, PHYSTOP, DEVSPACE, PGSIZE, pages, userPages,
        Set.mem_ofPred_eq, Nat.reducePow] at hkernel hle hu ⊢
      omega
    rw [h.gap _ hgap.1 hgap.2] at hpde
    exact Bool.false_ne_true hpde

theorem Layout.Arena.writable {p : Frame} (h : lay.Arena p) : lay.Writable p :=
  Or.inr ⟨lay.data_le.trans h.1, h.2⟩

/-- The caller's address space is among the pages `F`, and what is behind a null pointer does
no harm. -/
structure NullPage (m₀ : Frame → Page) (d₀ : Frame) (F : Multiset Frame) : Prop where
  space : space m₀ d₀ ≤ F
  safe : NullSafe m₀ d₀

/-- The page that the word at user address 0 names. -/
def nullTarget (m : Frame → Page) (d : Frame) : Option Frame :=
  let word := m (PTE_ADDR (pte m d 0)) 0
  if present word ∧ user word then some (PTE_ADDR word) else none

theorem NullSafe.target {m : Frame → Page} (h : NullSafe m d) : nullTarget m d = none :=
  if_neg h.2

/-- What a failed call of `exec` leaves: the pages `F` of the caller as they were, and a caller
that has called `begin_op` and `end_op` once more. -/
structure Restored (m₀ : Frame → Page) (p₀ : Curproc) (F : Multiset Frame)
    (v : View Frame Page Curproc) : Prop where
  owned : v.owned = F
  data : ∀ p ∈ F, v.mem p = m₀ p
  proc : v.ghost = { p₀ with begun := p₀.begun + 1, ended := p₀.ended + 1 }

theorem npages_PGROUNDUP (sz : ℕ) : npages (PGROUNDUP sz) = npages sz := by
  unfold npages PGROUNDUP PGSIZE
  omega

theorem Building.roundUp (h : Building lay m₀ v d F sz) :
    Building lay m₀ v d F (PGROUNDUP sz) where
  holds := h.holds
  kernel := h.kernel
  covers :=
    { le := by
        have hle := h.covers.le
        unfold KERNBASE at hle ⊢
        unfold PGROUNDUP PGSIZE
        omega
      mapped := fun u hu => by
        rw [npages_PGROUNDUP]
        exact h.covers.mapped u hu }
  data := h.data

/-- The caller, which owns its address space and perhaps other pages. -/
structure CallerOf (m₀ : Frame → Page) (p₀ : Curproc) (F : Multiset Frame) : Prop where
  pages : ∃ F', F = F' + space m₀ p₀.pgdir
  cr3 : p₀.cr3 = p₀.pgdir
  kstack : p₀.kstack ≠ 0

/-- What keeps the null pointer harmless. -/
def Harmless (m₀ : Frame → Page) (p₀ : Curproc) (argv : List (List ℕ)) : Prop :=
  NullSafe m₀ p₀.pgdir ∨ ∀ s ∈ argv, s.length < 2 ^ 25

theorem CallerOf.guard {p₀ : Curproc} {argv : List (List ℕ)} (h : CallerOf m₀ p₀ F)
    (hsafe : Harmless m₀ p₀ argv) :
    NullPage m₀ p₀.cr3 F ∨ ∀ s ∈ argv, s.length < 2 ^ 25 := by
  refine hsafe.imp_left fun hnull => ?_
  obtain ⟨F', hF⟩ := h.pages
  rw [h.cr3]
  exact ⟨by rw [hF]; exact Multiset.le_add_left _ _, hnull⟩

theorem covers_fresh (hfresh : Fresh lay v v' d F) : Covers v'.mem d 0 where
  le := Nat.zero_le _
  mapped u hu := by
    rw [hfresh.absent u hu]
    simp [npages, PGSIZE]

/-- The running process: it owns its address space, its page directory is loaded, and it has
its kernel stack. -/
structure ExecCaller (lay : Layout) (w : World Frame Page Curproc Reply) : Prop where
  owns : w.Owns lay.Arena (space w.mem w.state.pgdir)
  cr3 : w.state.cr3 = w.state.pgdir
  kstack : w.state.kstack ≠ 0

/-- The free pages, the contents of all others and the caller are as before, and the call has
called `begin_op` and `end_op` once each. -/
structure ExecClean (w w' : World Frame Page Curproc Reply) : Prop where
  free : (w'.free : Multiset Frame) = w.free
  mem : ∀ p, p ∉ w.free → w'.mem p = w.mem p
  proc : w'.state = { w.state with begun := w.state.begun + 1, ended := w.state.ended + 1 }

theorem Restored.clean {w w' : World Frame Page Curproc Reply} {owned' : Multiset Frame}
    (h : Restored w.mem w.state (space w.mem w.state.pgdir) (w'.view owned'))
    (hkept : w.Kept w' (space w.mem w.state.pgdir) owned') : ExecClean w w' := by
  obtain ⟨howned, hmem, hproc⟩ := h
  have howned : owned' = space w.mem w.state.pgdir := howned
  have hpages := hkept.pages
  rw [howned] at hpages
  refine ⟨add_right_cancel hpages, fun p hp => ?_, hproc⟩
  by_cases hin : p ∈ space w.mem w.state.pgdir
  · exact hmem p hin
  · refine hkept.others p fun hsum => ?_
    rcases Multiset.mem_add.mp hsum with hfree | hown
    · exact hp (Multiset.mem_coe.mp hfree)
    · exact hin hown

/-- The header of a file without segments. -/
def bareElf (i : ℕ) : ℕ := [0x7F, 0x45, 0x4C, 0x46].getD i 0

/-- A process with the arguments of `exec` in its pages. -/
def execWorld (fill : ℕ → Page) : World Frame Page Curproc Reply where
  free := List.range' 50000 2000
  mem := sampleMem sampleLayout 8300 fill
  state := sampleProc 8300
  answer := fun _ => ⟨true, fun _ _ => elfhdr, fun _ _ => elfhdr, fun _ _ => bareElf⟩
  refuse := fun _ => false
  failed := false

theorem execWorld_caller (fill : ℕ → Page) : ExecCaller sampleLayout (execWorld fill) where
  owns := by
    refine ⟨Multiset.nodup_add.mpr ⟨?_, sample_nodup, Multiset.disjoint_left.mpr ?_⟩, ?_⟩
    · exact Multiset.coe_nodup.mpr List.nodup_range'
    · intro p hfree hspace
      have hfree := List.mem_range'_1.mp (Multiset.mem_coe.mp hfree)
      have hlow := mem_sample_space (by decide) hspace
      omega
    · intro p hp
      rcases Multiset.mem_add.mp hp with hfree | hspace
      · have hfree := List.mem_range'_1.mp (Multiset.mem_coe.mp hfree)
        have hlow : sampleLayout.endPage ≤ 50000 := by decide
        have hhigh : 52000 ≤ PHYSTOP / PGSIZE := by decide
        exact ⟨hlow.trans hfree.1, hfree.2.trans_le hhigh⟩
      · exact (sample_arena (by decide) hspace).1
  cr3 := rfl
  kstack := by
    show (1999 : ℕ) ≠ 0
    decide

end Xv6.Vm
