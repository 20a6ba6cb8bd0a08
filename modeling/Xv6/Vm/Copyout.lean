import Xv6.Vm.UserMemory

/-!
# `copyout`

`copyout` looks at the pages of its range one after another.  Where a page has a page
table, the entry decides: the bytes are stored, or the call fails.  Where it has none,
`uva2ka` reads through a null pointer, that is, through the page tables that are in
`%cr3`, and nothing is promised.

* `copyout_of_accessible`, `copyout_of_denied`, `copyout_of_absent`: the three cases for the
  first page of a range;
* `touched_iff`: the range without its first page;
* `copyout_checks_iff`: the call is right exactly if every page that it gets to has a
  page table.
-/

namespace Xv6.Vm

open Allocation Logic

variable {lay : Layout} {v v' v₁ : View Frame Page Curproc} {d u k : ℕ} {F : Multiset Frame}
variable {m m' m₀ : Frame → Page} {panics : View Frame Page Curproc → Prop} {enough : ℕ}
variable {answers : Reply → Prop}

/-! ## How a page directory is built -/

/-- A call that changes the user half of a page directory. -/
inductive BuildStep where
  | allocuvm (oldsz newsz : ℕ)
  | clearpteu (uva : ℕ)

def BuildStep.call (lay : Layout) (pgdir : Frame) : BuildStep → Call Curproc Reply Unit
  | allocuvm oldsz newsz => do
      let _ ← Vm.allocuvm lay pgdir oldsz newsz
      pure ()
  | clearpteu uva => Vm.clearpteu pgdir (uint uva)

def buildFrom (lay : Layout) (pgdir : Frame) : List BuildStep → Call Curproc Reply Unit
  | [] => pure ()
  | step :: rest => do
      step.call lay pgdir
      buildFrom lay pgdir rest

/-- `setupkvm`, and then calls of `allocuvm` and `clearpteu` with any arguments. -/
def build (lay : Layout) (steps : List BuildStep) : Call Curproc Reply (Option Frame) := do
  match ← setupkvm lay with
  | none => pure none
  | some pgdir =>
      buildFrom lay pgdir steps
      pure (some pgdir)

/-! ## What building keeps -/

/-- The user half of the page directory may have changed, and nothing else of what there
was. -/
structure KernelKept (v v' : View Frame Page Curproc) (d : Frame) (F : Multiset Frame) :
    Prop where
  entries : ∀ u < pages, userPages ≤ u → pte v'.mem d u = pte v.mem d u
  dir : ∀ i, userPages / 1024 ≤ i → v'.mem d i = v.mem d i
  data : ∀ p ∈ F, v'.mem p = v.mem p
  ghost : v'.ghost = v.ghost

namespace KernelKept

theorem refl : KernelKept v v d F :=
  ⟨fun _ _ _ => rfl, fun _ _ => rfl, fun _ _ => rfl, rfl⟩

theorem trans (h : KernelKept v v₁ d F) (h' : KernelKept v₁ v' d F) : KernelKept v v' d F where
  entries u hu hle := (h'.entries u hu hle).trans (h.entries u hu hle)
  dir i hi := (h'.dir i hi).trans (h.dir i hi)
  data p hp := (h'.data p hp).trans (h.data p hp)
  ghost := h'.ghost.trans h.ghost

theorem mono {F' : Multiset Frame} (h : KernelKept v v' d F') (hle : F ≤ F') :
    KernelKept v v' d F :=
  ⟨h.entries, h.dir, fun p hp => h.data p (Multiset.mem_of_le hle hp), h.ghost⟩

/-- The address space does not change. -/
theorem of_same (hd : v'.mem d = v.mem d) (htables : ∀ p ∈ tables v.mem d, v'.mem p = v.mem p)
    (hdata : ∀ p ∈ F, v'.mem p = v.mem p) (hghost : v'.ghost = v.ghost) : KernelKept v v' d F where
  entries _ hu _ := pte_congr hd htables hu
  dir i _ := by rw [hd]
  data := hdata
  ghost := hghost

theorem unmapped {lo hi : ℕ} (hv : Holds lay v d F) (h : Unmapped lay v v' d F lo hi)
    (hhi : hi ≤ userPages) : KernelKept v v' d F where
  entries u hu hle := by rw [h.entries u hu, if_neg (by omega)]
  dir i _ := by rw [h.dir]
  data p hp := by
    refine h.data p ?_ fun htable => hv.notMem_space hp (mem_space.mpr (Or.inr (Or.inl htable)))
    rw [h.holds.owned]
    exact Multiset.mem_add.mpr (Or.inl hp)
  ghost := h.ghost

theorem grown {lo hi : ℕ} (hv : Holds lay v d F) (h : Grown lay v v' d F lo hi)
    (hhi : hi ≤ userPages) : KernelKept v v' d F where
  entries u hu hle := h.others u hu (by omega)
  dir := h.dir
  data _ := h.keep hv
  ghost := h.ghost

theorem newPage {p : Frame} (hv : Holds lay v d F) (h : NewPage lay v v' p) :
    KernelKept v v' d F := by
  have hrest : ∀ q ∈ v.owned, v'.mem q = v.mem q := fun q hq =>
    h.rest q fun heq => h.new (heq ▸ hq)
  refine of_same (hrest d hv.dir_mem) (fun q hq => hrest q ?_) (fun q hq => hrest q ?_) h.ghost
  · exact Multiset.mem_of_le hv.space_le (mem_space.mpr (Or.inr (Or.inl hq)))
  · rw [hv.owned]
    exact Multiset.mem_add.mpr (Or.inl hq)

theorem kfree {p word : ℕ} (hv : Holds lay v d ({p} + F)) :
    KernelKept v { v with
      owned := v.owned.erase p
      mem := Function.update v.mem p fun _ => word } d F := by
  have hfreed := freed_kfree (w := word) hv.nodup (hv.owned.trans (add_assoc _ _ _))
  have hrest : ∀ q ∈ F + space v.mem d, _ := hfreed.data
  refine of_same (hrest d ?_) (fun q hq => hrest q ?_) (fun q hq => hrest q ?_) rfl
  · exact Multiset.mem_add.mpr (Or.inr dir_mem_space)
  · exact Multiset.mem_add.mpr (Or.inr (mem_space.mpr (Or.inr (Or.inl hq))))
  · exact Multiset.mem_add.mpr (Or.inl hq)

theorem kernelHalf (h : KernelKept v v' d F) (hk : KernelHalf v.mem d) : KernelHalf v'.mem d :=
  hk.congr h.entries h.dir

end KernelKept

/-- The loop of `allocuvm` from page `k` on, for any sizes: it panics if a page is there
already. -/
theorem safe_allocFrom_any {Q : ℕ → View Frame Page Curproc → Prop} {oldsz newsz : ℕ}
    (hpanics : ∀ v, panics v) (hnew : newsz < KERNBASE) (hv : Holds lay v d F)
    (hQ : ∀ r v', Holds lay v' d F → KernelKept v v' d F → Q r v') :
    (execLogic lay answers enough panics).Safe
      (allocFrom lay d oldsz newsz (k * PGSIZE) : Call Curproc Reply ℕ) Q v := by
  induction hn : npages newsz - k generalizing k v with
  | zero =>
      rw [allocFrom, if_neg (by rw [← lt_npages]; omega)]
      exact hQ newsz v hv KernelKept.refl
  | succ n ih =>
      have hhigh := npages_le hnew.le
      have huser : k < userPages := by omega
      have hcancel : k * PGSIZE / PGSIZE = k := Nat.mul_div_cancel k (by decide)
      rw [allocFrom, if_pos (lt_npages.mp (by omega)), Comp.bind_eq, safe_bind, safe_kalloc]
      refine ⟨fun _ => ?_, fun mem x hmem hnotMem => ?_⟩
      · simp only [Comp.bind_eq, safe_bind, Comp.pure_eq, safe_ret]
        refine safe_deallocuvm hnew.le hv.failed fun v' hv' => hQ 0 v' hv'.holds ?_
        have hkept := KernelKept.unmapped hv.failed hv' hhigh
        exact ⟨hkept.entries, hkept.dir, hkept.data, hkept.ghost⟩
      dsimp only
      rw [Comp.bind_eq, safe_bind, safe_memset, Comp.bind_eq, safe_bind]
      refine ⟨Multiset.mem_cons_self mem _, ?_⟩
      have hpage : NewPage lay v { v with
          owned := mem ::ₘ v.owned
          mem := Function.update (Function.update v.mem mem x) mem fun _ => 0 } mem :=
        newPage hmem hnotMem
      generalize View.mk _ _ _ _ = v₂ at hpage ⊢
      have hv₂ := hv.newPage hpage
      have hkept₂ := KernelKept.newPage hv hpage
      have hone : (mappages d (k * PGSIZE) (1 * PGSIZE) (mem * PGSIZE) (PTE_W ||| PTE_U) :
          Call Curproc Reply Bool) = _ := mappages_eq Nat.one_pos (huser.trans userPages_lt)
      have hlt : k * PGSIZE < 2 ^ 32 := by
        have hpages := huser.trans userPages_lt
        unfold pages at hpages
        unfold PGSIZE
        omega
      rw [Nat.one_mul] at hone
      rw [hone]
      refine safe_mapFrom rfl hv₂ hlt (fun _ => ?_) (fun _ => hpanics v₂) fun v₃ hv₃ => ?_
      · -- no page for the page table
        rw [if_neg Bool.false_ne_true]
        simp only [Comp.bind_eq, safe_bind, Comp.pure_eq, safe_ret]
        refine safe_deallocuvm hnew.le hv₂.failed fun v' hv' => ?_
        have hmem' : mem ∈ v'.owned := by simp [hv'.holds.owned]
        have hkept := KernelKept.unmapped hv₂.failed hv' hhigh
        have hkept' : KernelKept v₂ v' d F :=
          ⟨hkept.entries, hkept.dir,
            fun p hp => hkept.data p (Multiset.mem_add.mpr (Or.inr hp)), hkept.ghost⟩
        exact safe_kfree hmem' (hv'.holds.arena mem hmem')
          (hQ 0 _ hv'.holds.kfree (hkept₂.trans (hkept'.trans (KernelKept.kfree hv'.holds))))
      · rw [hcancel] at hv₃
        have hadd : k * PGSIZE + PGSIZE = (k + 1) * PGSIZE := (Nat.add_one_mul k PGSIZE).symm
        have hgrown := (Grown.refl hv (le_refl k)).add hpage hv₃ (by decide) le_rfl huser
        rw [mapFrom, Comp.pure_eq, safe_ret, if_pos rfl, hadd]
        refine ih hgrown.holds (fun r v' hv' hkept => hQ r v' hv' ?_) (by omega)
        exact (KernelKept.grown hv hgrown (by omega)).trans hkept

/-- What there is while a page directory is built. -/
structure Directory (lay : Layout) (m₀ : Frame → Page) (v : View Frame Page Curproc) (d : Frame)
    (F : Multiset Frame) : Prop where
  holds : Holds lay v d F
  kernel : KernelHalf v.mem d
  data : ∀ p ∈ F, v.mem p = m₀ p

theorem KernelKept.directory (h : KernelKept v v' d F) (hv : Directory lay m₀ v d F)
    (hv' : Holds lay v' d F) : Directory lay m₀ v' d F :=
  ⟨hv', h.kernelHalf hv.kernel, fun p hp => (h.data p hp).trans (hv.data p hp)⟩

namespace Directory

theorem safe_allocuvm {Q : ℕ → View Frame Page Curproc → Prop} {oldsz newsz : ℕ}
    (hpanics : ∀ v, panics v) (h : Directory lay m₀ v d F)
    (hQ : ∀ r v', Directory lay m₀ v' d F → v'.ghost = v.ghost → Q r v') :
    (execLogic lay answers enough panics).Safe
      (allocuvm lay d oldsz newsz : Call Curproc Reply ℕ) Q v := by
  rw [allocuvm]
  by_cases hnew : newsz ≥ KERNBASE
  · rw [if_pos hnew]
    exact hQ 0 v h rfl
  rw [if_neg hnew]
  by_cases hlt : newsz < oldsz
  · rw [if_pos hlt]
    exact hQ oldsz v h rfl
  rw [if_neg hlt]
  exact safe_allocFrom_any hpanics (by omega) h.holds fun r v' hv' hkept =>
    hQ r v' (hkept.directory h hv') hkept.ghost

/-- The bit of an entry of the kernel is not set anyway. -/
theorem safe_clearpteu {Q : Unit → View Frame Page Curproc → Prop} {uva : ℕ}
    (hpanics : ∀ v, panics v) (h : Directory lay m₀ v d F) (huva : uva < 2 ^ 32)
    (hQ : ∀ v', Directory lay m₀ v' d F → v'.ghost = v.ghost → Q () v') :
    (execLogic lay answers enough panics).Safe (clearpteu d uva) Q v := by
  have hpages := page_lt huva
  rw [clearpteu, Comp.bind_eq, safe_bind]
  refine safe_walkpgdir h.holds.dir_mem (fun _ => hpanics v) fun hpde => ?_
  rw [PDX_eq] at hpde ⊢
  rw [PTX_eq]
  dsimp only
  have htable := h.holds.table_mem hpages hpde
  rw [Comp.bind_eq, safe_bind, safe_load]
  refine ⟨htable, ?_⟩
  rw [← pte_of_present hpde, safe_store]
  refine ⟨htable, hQ _ ?_ rfl⟩
  have hcleared := h.holds.clearUser hpages hpde
  refine ⟨hcleared.holds, ?_, fun p hp => (hcleared.data p hp).trans (h.data p hp)⟩
  refine h.kernel.congr (fun u hu hle => ?_) fun i _ => congrFun hcleared.dir i
  rw [hcleared.entries u hu]
  split
  · rename_i heq
    have huser : user (pte v.mem d (uva / PGSIZE)) = false := by
      by_contra hu'
      have hlow := h.kernel.not_user hpages hpde (by simpa using hu')
      omega
    rw [heq, clearUser, huser, if_neg Bool.false_ne_true]
  · rfl

theorem safe_buildFrom {Q : Unit → View Frame Page Curproc → Prop} {steps : List BuildStep}
    (hpanics : ∀ v, panics v) (h : Directory lay m₀ v d F)
    (hQ : ∀ v', Directory lay m₀ v' d F → v'.ghost = v.ghost → Q () v') :
    (execLogic lay answers enough panics).Safe (buildFrom lay d steps) Q v := by
  induction steps generalizing v with
  | nil => exact hQ v h rfl
  | cons step rest ih =>
      rw [buildFrom, Comp.bind_eq, safe_bind]
      cases step with
      | allocuvm oldsz newsz =>
          rw [BuildStep.call, Comp.bind_eq, safe_bind]
          refine h.safe_allocuvm hpanics fun _ v₁ hv₁ hghost₁ => ?_
          exact ih hv₁ fun v' hv' hghost => hQ v' hv' (hghost.trans hghost₁)
      | clearpteu uva =>
          refine h.safe_clearpteu hpanics (uint_lt uva) fun v₁ hv₁ hghost₁ => ?_
          exact ih hv₁ fun v' hv' hghost => hQ v' hv' (hghost.trans hghost₁)

end Directory

/-- The caller has the pages `v.owned`. -/
theorem safe_build {Q : Option Frame → View Frame Page Curproc → Prop} {steps : List BuildStep}
    (hpanics : ∀ v, panics v) (hnodup : v.owned.Nodup) (harena : ∀ p ∈ v.owned, lay.Arena p)
    (hnone : ∀ v', Q none v')
    (hsome : ∀ d v', Directory lay v.mem v' d v.owned → v'.ghost = v.ghost → Q (some d) v') :
    (execLogic lay answers enough panics).Safe (build lay steps) Q v := by
  rw [build, Comp.bind_eq, safe_bind]
  refine safe_setupkvm rfl hnodup harena (fun v' _ _ => hnone v') fun d v₁ hv₁ _ => ?_
  dsimp only
  rw [Comp.bind_eq, safe_bind]
  have hdirectory : Directory lay v.mem v₁ d v.owned := ⟨hv₁.holds, hv₁.kernel, hv₁.data⟩
  exact hdirectory.safe_buildFrom hpanics fun v' hv' hghost =>
    hsome d v' hv' (hghost.trans hv₁.ghost)

/-! ## One page of the range -/

variable {w : World Frame Page Curproc Reply} {va len : ℕ} {data : ℕ → ℕ}

/-- A finished page directory, and a caller with another one. -/
structure Built (lay : Layout) (w : World Frame Page Curproc Reply) (d : Frame) : Prop where
  nodup : (space w.mem d).Nodup
  arena : ∀ p ∈ space w.mem d, lay.Arena p
  kernel : KernelHalf w.mem d
  caller : w.state.cr3 ∉ space w.mem d

/-- A byte of the range is in page `k`. -/
def Touched (va len k : ℕ) : Prop := ∃ a, va ≤ a ∧ a < va + len ∧ a / PGSIZE = k

/-- The bytes of the range that are in its first page. -/
def firstPart (va len : ℕ) : ℕ := min (PGSIZE - (va - PGROUNDDOWN va)) len

theorem Built.accessible_lt (h : Built lay w d) (hk : k < pages) (ha : Accessible w.mem d k) :
    k < userPages :=
  h.kernel.not_user hk (pde_of_present ha.1) ha.2

theorem Built.copied (h : Built lay w d) {n : ℕ} (hcopied : Copied w.mem m' d va n data) :
    Built lay { w with mem := m' } d where
  nodup := by
    show (space m' d).Nodup
    rw [hcopied.space_eq]
    exact h.nodup
  arena := by
    show ∀ p ∈ space m' d, lay.Arena p
    rw [hcopied.space_eq]
    exact h.arena
  kernel := h.kernel.congr (fun u hu _ => hcopied.pte_eq hu) fun i _ => congrFun hcopied.dir i
  caller := by
    show w.state.cr3 ∉ space m' d
    rw [hcopied.space_eq]
    exact h.caller

/-- With a page table, the entry decides. -/
theorem uva2ka_run (hpde : present (w.mem d (k / 1024)) = true) :
    (uva2ka d (k * PGSIZE)).run w =
        (.returned (if Accessible w.mem d k then some (PTE_ADDR (pte w.mem d k)) else none), w) ∧
      (uva2ka d (k * PGSIZE)).loads w = [d, PTE_ADDR (w.mem d (k / 1024))] := by
  have hcancel : k * PGSIZE / PGSIZE = k := Nat.mul_div_cancel k (by decide)
  have hword := pte_of_present hpde
  constructor <;>
    cases hp : present (pte w.mem d k) <;> cases hu : user (pte w.mem d k) <;>
      simp [uva2ka, walkpgdir, load, Comp.run, Comp.loads, Comp.bind, PDX_eq, PTX_eq, hcancel,
        hpde, ← hword, hp, hu, Accessible]

/-- Without one, the page directory in `%cr3` is read. -/
theorem uva2ka_loads_cr3 (hpde : present (w.mem d (k / 1024)) = false) :
    w.state.cr3 ∈ (uva2ka d (k * PGSIZE)).loads w := by
  have hcancel : k * PGSIZE / PGSIZE = k := Nat.mul_div_cancel k (by decide)
  simp [uva2ka, walkpgdir, loadNull, myproc, load, Comp.loads, Comp.bind, PDX_eq, hcancel, hpde]

theorem PGROUNDDOWN_eq (va : ℕ) : PGROUNDDOWN va = va / PGSIZE * PGSIZE := rfl

/-- The first page is denied. -/
theorem copyout_of_denied (lay : Layout) (data : ℕ → ℕ) (hlen : 0 < len)
    (hpde : present (w.mem d (va / PGSIZE / 1024)) = true)
    (hdenied : ¬Accessible w.mem d (va / PGSIZE)) :
    (copyout lay d va data len).run w = (.returned false, w) ∧
      (copyout lay d va data len).loads w = [d, PTE_ADDR (w.mem d (va / PGSIZE / 1024))] := by
  obtain ⟨hrun, hloads⟩ := uva2ka_run hpde
  rw [if_neg hdenied] at hrun
  rw [copyout, if_pos hlen, PGROUNDDOWN_eq]
  exact ⟨Comp.run_bind hrun, (Comp.loads_bind hrun).trans (by rw [hloads]; rfl)⟩

/-- The first page has no page table. -/
theorem copyout_of_absent (hlen : 0 < len)
    (hpde : present (w.mem d (va / PGSIZE / 1024)) = false) :
    w.state.cr3 ∈ (copyout lay d va data len).loads w := by
  rw [copyout, if_pos hlen, PGROUNDDOWN_eq]
  exact Comp.mem_loads_bind (uva2ka_loads_cr3 hpde)

/-- After the first page, which is accessible. -/
def stored (w : World Frame Page Curproc Reply) (d : Frame) (va len : ℕ) (data : ℕ → ℕ) :
    World Frame Page Curproc Reply :=
  let page := PTE_ADDR (pte w.mem d (va / PGSIZE))
  { w with
    mem := Function.update w.mem page
      (putBytes (va % PGSIZE) (firstPart va len) data (w.mem page)) }

/-- The rest of the range starts with the next page. -/
theorem copyout_of_accessible (h : Built lay w d) (hva : va < 2 ^ 32) (hlen : 0 < len)
    (ha : Accessible w.mem d (va / PGSIZE)) :
    let rest := copyout lay d ((va / PGSIZE + 1) * PGSIZE) (fun i => data (i + firstPart va len))
      (len - firstPart va len)
    (copyout lay d va data len).run w = rest.run (stored w d va len data) ∧
      (copyout lay d va data len).loads w =
        d :: PTE_ADDR (w.mem d (va / PGSIZE / 1024)) :: rest.loads (stored w d va len data) := by
  have hpage := page_lt hva
  have huser := h.accessible_lt hpage ha
  have hwritable := (h.arena _ (mem_space.mpr (Or.inr (Or.inr (mem_users huser ha.1))))).writable
  have hnext : uint (va / PGSIZE * PGSIZE + PGSIZE) = (va / PGSIZE + 1) * PGSIZE := by
    unfold userPages at huser
    unfold uint PGSIZE at *
    omega
  have hstart : va - va / PGSIZE * PGSIZE = va % PGSIZE := by
    unfold PGSIZE
    omega
  obtain ⟨hrun, hloads⟩ := uva2ka_run (w := w) (pde_of_present ha.1)
  rw [if_pos ha] at hrun
  have hput : (putPage lay (PTE_ADDR (pte w.mem d (va / PGSIZE))) (va % PGSIZE)
      (firstPart va len) data).run w = (.returned (), stored w d va len data) := by
    rw [putPage, if_pos hwritable]
    rfl
  have hputLoads : (putPage lay (PTE_ADDR (pte w.mem d (va / PGSIZE))) (va % PGSIZE)
      (firstPart va len) data).loads w = [] := by
    rw [putPage, if_pos hwritable]
    rfl
  have hcount : min (PGSIZE - va % PGSIZE) len = firstPart va len := by
    rw [firstPart, PGROUNDDOWN_eq, hstart]
  intro rest
  rw [copyout, if_pos hlen, PGROUNDDOWN_eq]
  dsimp only
  rw [hnext, hstart, hcount]
  constructor
  · exact (Comp.run_bind hrun).trans (Comp.run_bind hput)
  · refine (Comp.loads_bind hrun).trans ?_
    rw [hloads]
    refine congrArg ([d, _] ++ ·) ((Comp.loads_bind hput).trans ?_)
    rw [hputLoads, List.nil_append]

/-! ## The whole range -/

/-- The page is touched, and `copyout` gets to it. -/
def Reached (m : Frame → Page) (d : Frame) (va len k : ℕ) : Prop :=
  Touched va len k ∧ ∀ j < k, Touched va len j → Accessible m d j

theorem firstPart_pos (hlen : 0 < len) : 0 < firstPart va len := by
  unfold firstPart PGROUNDDOWN PGSIZE
  omega

theorem firstPart_eq (va len : ℕ) : firstPart va len = min (PGSIZE - va % PGSIZE) len := by
  unfold firstPart PGROUNDDOWN PGSIZE
  omega

theorem touched_iff (hlen : 0 < len) :
    Touched va len k ↔ k = va / PGSIZE ∨
      Touched ((va / PGSIZE + 1) * PGSIZE) (len - firstPart va len) k := by
  rw [firstPart_eq]
  unfold Touched PGSIZE
  constructor
  · rintro ⟨a, hlo, hhi, rfl⟩
    by_cases hfirst : a / 4096 = va / 4096
    · exact Or.inl hfirst
    · exact Or.inr ⟨a, by omega, by omega, rfl⟩
  · rintro (rfl | ⟨a, hlo, hhi, rfl⟩)
    · exact ⟨va, le_rfl, by omega, rfl⟩
    · exact ⟨a, by omega, by omega, rfl⟩

theorem lt_of_touched_rest {n : ℕ} (h : Touched ((u + 1) * PGSIZE) n k) : u < k := by
  obtain ⟨a, hlo, -, rfl⟩ := h
  unfold PGSIZE at *
  omega

/-- The pages that `copyout` gets to after an accessible first one. -/
theorem reached_iff (hlen : 0 < len) (ha : Accessible m d (va / PGSIZE)) :
    Reached m d va len k ↔ k = va / PGSIZE ∨
      Reached m d ((va / PGSIZE + 1) * PGSIZE) (len - firstPart va len) k := by
  unfold Reached
  constructor
  · rintro ⟨htouched, hbefore⟩
    refine ((touched_iff hlen).mp htouched).imp_right fun hrest => ⟨hrest, fun j hj htouched => ?_⟩
    exact hbefore j hj ((touched_iff hlen).mpr (Or.inr htouched))
  · rintro (rfl | ⟨hrest, hbefore⟩)
    · refine ⟨(touched_iff hlen).mpr (Or.inl rfl), fun j hj htouched => ?_⟩
      rcases (touched_iff hlen).mp htouched with rfl | hrest
      · omega
      · exact absurd (lt_of_touched_rest hrest) (by omega)
    · refine ⟨(touched_iff hlen).mpr (Or.inr hrest), fun j hj htouched => ?_⟩
      rcases (touched_iff hlen).mp htouched with rfl | htouched
      · exact ha
      · exact hbefore j hj htouched

/-- The first page is always reached. -/
theorem reached_first (hlen : 0 < len) : Reached m d va len (va / PGSIZE) := by
  refine ⟨(touched_iff hlen).mpr (Or.inl rfl), fun j hj htouched => ?_⟩
  rcases (touched_iff hlen).mp htouched with rfl | hrest
  · omega
  · exact absurd (lt_of_touched_rest hrest) (by omega)

theorem copied_stored (h : Built lay w d) (hva : va < 2 ^ 32)
    (ha : Accessible w.mem d (va / PGSIZE)) (len : ℕ) (data : ℕ → ℕ) :
    Copied w.mem (stored w d va len data).mem d va (firstPart va len) data := by
  have huser := h.accessible_lt (page_lt hva) ha
  have hsplit : va / PGSIZE * PGSIZE + va % PGSIZE = va := Nat.div_add_mod' va PGSIZE
  have hfit : va % PGSIZE + firstPart va len ≤ PGSIZE := by
    have hmod := Nat.mod_lt va (show 0 < PGSIZE by decide)
    rw [firstPart_eq]
    omega
  have hcopied : Copied w.mem _ d (va / PGSIZE * PGSIZE + va % PGSIZE) _ data :=
    Copied.page h.nodup huser ha.1 hfit
  rwa [hsplit] at hcopied

/-- The range without its first page, which is accessible. -/
theorem rest_le (h : Built lay w d) (hlen : 0 < len) (hva : va + len ≤ 2 ^ 32)
    (ha : Accessible w.mem d (va / PGSIZE)) :
    (va / PGSIZE + 1) * PGSIZE + (len - firstPart va len) ≤ 2 ^ 32 := by
  have huser := h.accessible_lt (page_lt (by omega)) ha
  rw [firstPart_eq]
  unfold userPages at huser
  unfold PGSIZE at *
  omega

theorem accessible_stored (h : Built lay w d) (hva : va < 2 ^ 32)
    (ha : Accessible w.mem d (va / PGSIZE)) (data : ℕ → ℕ) (hk : k < pages) :
    Accessible (stored w d va len data).mem d k ↔ Accessible w.mem d k := by
  rw [Accessible, Accessible, (copied_stored h hva ha len data).pte_eq hk]

theorem touched_lt (hva : va + len ≤ 2 ^ 32) (htouched : Touched va len k) : k < pages := by
  obtain ⟨a, -, hhi, rfl⟩ := htouched
  exact page_lt (by omega)

/-- The rest of the range is where the first part ends. -/
theorem copied_rest {n : ℕ} (hn : n = len - firstPart va len)
    (h : Copied m m' d ((va / PGSIZE + 1) * PGSIZE) n data) :
    Copied m m' d (va + firstPart va len) n data := by
  by_cases hzero : n = 0
  · subst hzero
    exact h.move
  · have hnext : (va / PGSIZE + 1) * PGSIZE = va + firstPart va len := by
      rw [firstPart_eq] at *
      unfold PGSIZE at *
      omega
    rwa [← hnext]

/-- What the rest of the range reads. -/
theorem reads_rest (h : Built lay w d) (hva : va < 2 ^ 32) (hlen : 0 < len)
    (ha : Accessible w.mem d (va / PGSIZE)) (data : ℕ → ℕ)
    (hrest : ∀ p ∈ (copyout lay d ((va / PGSIZE + 1) * PGSIZE)
      (fun i => data (i + firstPart va len)) (len - firstPart va len)).loads
        (stored w d va len data), p ∈ space (stored w d va len data).mem d) :
    ∀ p ∈ (copyout lay d va data len).loads w, p ∈ space w.mem d := by
  intro p hp
  rw [(copyout_of_accessible h hva hlen ha).2] at hp
  rcases List.mem_cons.mp hp with rfl | hp
  · exact dir_mem_space
  rcases List.mem_cons.mp hp with rfl | hp
  · have hindex := div_lt_NPDENTRIES (page_lt hva)
    exact mem_space.mpr (Or.inr (Or.inl (mem_tables hindex (pde_of_present ha.1))))
  · have hmem := hrest p hp
    rwa [(copied_stored h hva ha len data).space_eq] at hmem

theorem copyout_accessible (data : ℕ → ℕ) (h : Built lay w d) (hva : va + len ≤ 2 ^ 32)
    (hall : ∀ k, Touched va len k → Accessible w.mem d k) :
    (∃ m', (copyout lay d va data len).run w = (.returned true, { w with mem := m' }) ∧
        Copied w.mem m' d va len data) ∧
      ∀ p ∈ (copyout lay d va data len).loads w, p ∈ space w.mem d := by
  induction hn : len using Nat.strong_induction_on generalizing w va len data with
  | _ n ih =>
  subst hn
  by_cases hzero : len = 0
  · subst hzero
    rw [copyout, if_neg (by omega)]
    exact ⟨⟨w.mem, rfl, Copied.refl⟩, by simp [Comp.loads]⟩
  have hlen : 0 < len := Nat.pos_of_ne_zero hzero
  have ha := hall _ ((touched_iff hlen).mpr (Or.inl rfl))
  have hlt : va < 2 ^ 32 := by omega
  have hpos : 0 < firstPart va len := firstPart_pos hlen
  have hfirst := copied_stored h hlt ha len data
  have hrest := rest_le h hlen hva ha
  have hall' : ∀ k, Touched ((va / PGSIZE + 1) * PGSIZE) (len - firstPart va len) k →
      Accessible (stored w d va len data).mem d k := fun k htouched =>
    (accessible_stored h hlt ha data (touched_lt hrest htouched)).mpr
      (hall k ((touched_iff hlen).mpr (Or.inr htouched)))
  obtain ⟨⟨m', hrun, hcopied⟩, hloads⟩ := ih (len - firstPart va len) (by omega)
    (fun i => data (i + firstPart va len)) (h.copied hfirst) hrest hall' rfl
  refine ⟨⟨m', (copyout_of_accessible h hlt hlen ha).1.trans hrun, ?_⟩,
    reads_rest h hlt hlen ha data hloads⟩
  have hsum : firstPart va len + (len - firstPart va len) = len := by
    rw [firstPart_eq]
    omega
  have happend := hfirst.append (copied_rest rfl hcopied) fun _ => rfl
  rwa [hsum] at happend

theorem copyout_denied (data : ℕ → ℕ) (h : Built lay w d) (hva : va + len ≤ 2 ^ 32)
    (htable : ∀ k, Reached w.mem d va len k → present (w.mem d (k / 1024)) = true)
    (hdenied : ∃ k, Touched va len k ∧ ¬Accessible w.mem d k) :
    ((copyout lay d va data len).run w).1 = .returned false ∧
      ∀ p ∈ (copyout lay d va data len).loads w, p ∈ space w.mem d := by
  induction hn : len using Nat.strong_induction_on generalizing w va len data with
  | _ n ih =>
  subst hn
  obtain ⟨k, htouched, hk⟩ := hdenied
  have hlen : 0 < len := by
    obtain ⟨a, hlo, hhi, -⟩ := htouched
    omega
  have hlt : va < 2 ^ 32 := by omega
  by_cases ha : Accessible w.mem d (va / PGSIZE)
  · have hpos : 0 < firstPart va len := firstPart_pos hlen
    have hrest := rest_le h hlen hva ha
    have hfirst := copied_stored h hlt ha len data
    have htouched' : Touched ((va / PGSIZE + 1) * PGSIZE) (len - firstPart va len) k :=
      ((touched_iff hlen).mp htouched).resolve_left fun heq => hk (heq ▸ ha)
    have htable' : ∀ j, Reached (stored w d va len data).mem d ((va / PGSIZE + 1) * PGSIZE)
        (len - firstPart va len) j →
        present ((stored w d va len data).mem d (j / 1024)) = true := fun j hj => by
      rw [hfirst.dir]
      refine htable j ((reached_iff hlen ha).mpr (Or.inr ⟨hj.1, fun i hi hti => ?_⟩))
      exact (accessible_stored h hlt ha data (touched_lt hrest hti)).mp (hj.2 i hi hti)
    obtain ⟨hrun, hloads⟩ := ih (len - firstPart va len) (by omega)
      (fun i => data (i + firstPart va len)) (h.copied hfirst) hrest htable'
      ⟨k, htouched', fun hacc => hk ((accessible_stored h hlt ha data
        (touched_lt hrest htouched')).mp hacc)⟩ rfl
    exact ⟨(congrArg Prod.fst (copyout_of_accessible h hlt hlen ha).1).trans hrun,
      reads_rest h hlt hlen ha data hloads⟩
  · have hpde := htable _ (reached_first hlen)
    obtain ⟨hrun, hloads⟩ := copyout_of_denied lay data hlen hpde ha
    refine ⟨congrArg Prod.fst hrun, fun p hp => ?_⟩
    rw [hloads] at hp
    rcases List.mem_pair.mp hp with rfl | rfl
    · exact dir_mem_space
    · have hindex := div_lt_NPDENTRIES (page_lt hlt)
      exact mem_space.mpr (Or.inr (Or.inl (mem_tables hindex hpde)))

/-- Where `copyout` gets to a page without a page table, it reads the caller's. -/
theorem copyout_reads_null (data : ℕ → ℕ) (h : Built lay w d) (hva : va + len ≤ 2 ^ 32)
    (hk : Reached w.mem d va len k) (hpde : present (w.mem d (k / 1024)) = false) :
    w.state.cr3 ∈ (copyout lay d va data len).loads w := by
  induction hn : len using Nat.strong_induction_on generalizing w va len data with
  | _ n ih =>
  subst hn
  have hlen : 0 < len := by
    obtain ⟨a, hlo, hhi, -⟩ := hk.1
    omega
  have hlt : va < 2 ^ 32 := by omega
  by_cases hfirst : k = va / PGSIZE
  · exact copyout_of_absent hlen (hfirst ▸ hpde)
  · have hbefore : va / PGSIZE < k := by
      have hrest := ((touched_iff hlen).mp hk.1).resolve_left hfirst
      exact lt_of_touched_rest hrest
    have ha := hk.2 _ hbefore ((touched_iff hlen).mpr (Or.inl rfl))
    have hpos : 0 < firstPart va len := firstPart_pos hlen
    have hrest := rest_le h hlen hva ha
    have hstored := copied_stored h hlt ha len data
    have hk' := ((reached_iff hlen ha).mp hk).resolve_left hfirst
    rw [(copyout_of_accessible h hlt hlen ha).2]
    refine List.mem_cons_of_mem _ (List.mem_cons_of_mem _ ?_)
    refine ih (len - firstPart va len) (by omega) (fun i => data (i + firstPart va len))
      (h.copied hstored) hrest ⟨hk'.1, fun j hj htouched => ?_⟩ (by rwa [hstored.dir]) rfl
    exact (accessible_stored h hlt ha data (touched_lt hrest htouched)).mpr
      (hk'.2 j hj htouched)

/-! ## Every page is looked at -/

/-- The call stores its bytes if all pages of the range are accessible and fails if one is
not, and does not read through a null pointer: the page directory in `%cr3` is not read. -/
structure ChecksEveryPage (lay : Layout) (w : World Frame Page Curproc Reply) (d : Frame)
    (va len : ℕ) (data : ℕ → ℕ) : Prop where
  accessible : (∀ k, Touched va len k → Accessible w.mem d k) →
    ∃ m', (copyout lay d va data len).run w = (.returned true, { w with mem := m' }) ∧
      Copied w.mem m' d va len data
  denied : (∃ k, Touched va len k ∧ ¬Accessible w.mem d k) →
    ((copyout lay d va data len).run w).1 = .returned false
  null : w.state.cr3 ∉ (copyout lay d va data len).loads w

theorem Built.checks_iff (h : Built lay w d) (hva : va + len ≤ 2 ^ 32) (data : ℕ → ℕ) :
    ChecksEveryPage lay w d va len data ↔
      ∀ k, Reached w.mem d va len k → present (w.mem d (k / 1024)) = true := by
  constructor
  · intro hchecks k hk
    by_contra hpde
    exact hchecks.null (copyout_reads_null data h hva hk (by simpa using hpde))
  · intro htable
    refine ⟨fun hall => (copyout_accessible data h hva hall).1,
      fun hex => (copyout_denied data h hva htable hex).1, fun hnull => h.caller ?_⟩
    by_cases hall : ∀ k, Touched va len k → Accessible w.mem d k
    · exact (copyout_accessible data h hva hall).2 _ hnull
    · push Not at hall
      exact (copyout_denied data h hva htable hall).2 _ hnull

variable {w₀ : World Frame Page Curproc Reply} {steps : List BuildStep}

theorem ExecCaller.arena (h : ExecCaller lay w₀) :
    ∀ p ∈ space w₀.mem w₀.state.pgdir, lay.Arena p := fun p hp =>
  h.owns.arena p (Multiset.mem_add.mpr (Or.inr hp))

theorem ExecCaller.nodup (h : ExecCaller lay w₀) : (space w₀.mem w₀.state.pgdir).Nodup :=
  (Multiset.nodup_add.mp h.owns.nodup).2.1

theorem Directory.built {owned : Multiset Frame} (hcaller : ExecCaller lay w₀)
    (h : Directory lay m₀ (w.view owned) d (space w₀.mem w₀.state.pgdir))
    (hstate : w.state = w₀.state) : Built lay w d where
  nodup := h.holds.space_nodup
  arena p hp := h.holds.arena p (Multiset.mem_of_le h.holds.space_le hp)
  kernel := h.kernel
  caller := by
    rw [hstate, hcaller.cr3]
    exact h.holds.notMem_space dir_mem_space

theorem built_of_run (hcaller : ExecCaller lay w₀)
    (hbuild : (build lay steps).run w₀ = (.returned (some d), w)) : Built lay w d := by
  have hsafe : (execLogic lay (fun _ => True) 0 fun _ => True).Safe (build lay steps)
      (fun r v' => ∀ d, r = some d →
        Directory lay w₀.mem v' d (space w₀.mem w₀.state.pgdir) ∧ v'.ghost = w₀.state)
      (w₀.view (space w₀.mem w₀.state.pgdir)) := by
    refine safe_build (fun _ => trivial) hcaller.nodup hcaller.arena (fun v' d hd => by simp at hd)
      fun d v' hv' hghost d' hd' => ?_
    obtain rfl := Option.some.inj hd'
    exact ⟨hv', hghost⟩
  have hends := hsafe.run hcaller.owns (Or.inl rfl) fun _ => trivial
  rw [hbuild] at hends
  obtain ⟨owned', hQ, -⟩ := hends
  obtain ⟨hdirectory, hstate⟩ := hQ d rfl
  exact hdirectory.built hcaller hstate

/-- `copyout` is right if every page of the range that it gets to has a page table, and
else it reads through a null pointer. -/
theorem copyout_checks_iff (hcaller : ExecCaller lay w₀)
    (hbuild : (build lay steps).run w₀ = (.returned (some d), w)) (hva : va + len < 2 ^ 32)
    (data : ℕ → ℕ) :
    ChecksEveryPage lay w d va len data ↔
      ∀ k, Reached w.mem d va len k → present (w.mem d (k / 1024)) = true :=
  (built_of_run hcaller hbuild).checks_iff hva.le data

/-! ## A range that is right, and one that is not -/

/-- What `exec` does for the stack of a file without segments. -/
def stackSteps : List BuildStep := [.allocuvm 0 (2 * PGSIZE), .clearpteu 0]

theorem safe_build_stack {Q : Option Frame → View Frame Page Curproc → Prop}
    (hnodup : v.owned.Nodup) (harena : ∀ p ∈ v.owned, lay.Arena p)
    (henough : v.owned.card + NPDENTRIES + 4 < enough)
    (hsome : ∀ d v', Building lay v.mem v' d v.owned (2 * PGSIZE) → v'.ghost = v.ghost →
      Q (some d) v') :
    (execLogic lay answers enough panics).Safe (build lay stackSteps) Q v := by
  rw [build, Comp.bind_eq, safe_bind]
  refine safe_setupkvm rfl hnodup harena (fun v' hfew _ => ?_) fun d v₁ hv₁ _ => ?_
  · have hfew : enough ≤ v.owned.card + NPDENTRIES + 1 := hfew
    omega
  dsimp only
  rw [Comp.bind_eq, safe_bind, stackSteps, buildFrom, Comp.bind_eq, safe_bind, BuildStep.call,
    Comp.bind_eq, safe_bind]
  have hbuilding : Building lay v.mem v₁ d v.owned 0 :=
    ⟨hv₁.holds, hv₁.kernel, covers_fresh hv₁, hv₁.data⟩
  have hempty : (users v₁.mem d).card = 0 := by
    rw [users, Finset.sum_eq_zero, Multiset.card_zero]
    exact fun u hu => entry_of_absent (hv₁.absent u (Finset.mem_range.mp hu))
  refine Vm.safe_allocuvm rfl hv₁.holds (fun hlt u hlo hu => ?_) (fun habs => ?_) (fun habs => ?_)
    (fun v' hfew _ => ?_) fun hlt hle v₂ hv₂ _ => ?_
  · exact hv₁.absent u (hu.trans_le (npages_le hlt.le))
  · exact absurd habs (by decide)
  · omega
  · have hpages : npages (2 * PGSIZE) - npages 0 = 2 := by decide
    have hfew : enough ≤ v.owned.card + ((users v₁.mem d).card +
      (npages (2 * PGSIZE) - npages 0)) + NPDENTRIES + 2 := hfew
    rw [hempty, hpages] at hfew
    omega
  rw [Comp.pure_eq, safe_ret, buildFrom, Comp.bind_eq, safe_bind, BuildStep.call]
  have hgrown := hbuilding.grown hle hlt.le hv₂
  have hbottom : uint 0 = 0 * PGSIZE := by decide
  rw [hbottom]
  refine hgrown.safe_clearpteu (by decide) fun v₃ _ hv₃ hghost₃ => ?_
  exact hsome d v₃ hv₃ (hghost₃.trans (hv₂.ghost.trans hv₁.ghost))

theorem build_stack_run (hcaller : ExecCaller lay w₀) (hrefuse : ∀ i, w₀.refuse i = false)
    (hfree : NPDENTRIES + 4 < w₀.free.length) :
    ∃ d w owned, (build lay stackSteps).run w₀ = (.returned (some d), w) ∧
      Building lay w₀.mem (w.view owned) d (space w₀.mem w₀.state.pgdir) (2 * PGSIZE) ∧
      w.state = w₀.state := by
  generalize hF : space w₀.mem w₀.state.pgdir = F
  have howns := hcaller.owns
  have hnodup := hcaller.nodup
  have harena := hcaller.arena
  rw [hF] at howns hnodup harena
  have hsafe : (execLogic lay (fun _ => True) (w₀.free.length + F.card) fun _ => False).Safe
      (build lay stackSteps)
      (fun r v' => ∃ d, r = some d ∧ Building lay w₀.mem v' d F (2 * PGSIZE) ∧
        v'.ghost = w₀.state) (w₀.view F) := by
    refine safe_build_stack hnodup harena ?_ fun d v' hv' hghost => ⟨d, rfl, hv', hghost⟩
    show F.card + NPDENTRIES + 4 < w₀.free.length + F.card
    omega
  have hends := hsafe.run howns (Or.inr ⟨hrefuse, le_rfl⟩) fun _ => trivial
  generalize (build lay stackSteps).run w₀ = result at hends
  obtain ⟨result, w⟩ := result
  cases result with
  | panicked message =>
      obtain ⟨owned', hfalse⟩ := hends
      exact hfalse.elim
  | returned r =>
      obtain ⟨owned', ⟨d, rfl, hbuilding, hstate⟩, -⟩ := hends
      exact ⟨d, w, owned', rfl, hbuilding, hstate⟩

theorem execWorld_free : NPDENTRIES + 4 < (execWorld fun _ _ => 0).free.length := by
  show NPDENTRIES + 4 < (List.range' 50000 2000).length
  rw [List.length_range']
  unfold NPDENTRIES
  decide

/-- A word for the stack page. -/
theorem copyout_checks_stack : ∃ d w,
    (build sampleLayout stackSteps).run (execWorld fun _ _ => 0) = (.returned (some d), w) ∧
      ChecksEveryPage sampleLayout w d PGSIZE 4 fun i => i := by
  have hcaller := execWorld_caller fun _ _ => 0
  obtain ⟨d, w, owned, hrun, hbuilding, -⟩ :=
    build_stack_run hcaller (fun _ => rfl) execWorld_free
  refine ⟨d, w, hrun, (copyout_checks_iff hcaller hrun (by decide) _).mpr fun k hk => ?_⟩
  obtain ⟨⟨a, hlo, hhi, rfl⟩, -⟩ := hk
  have hpage : a / PGSIZE < npages (2 * PGSIZE) := by
    unfold npages PGSIZE at *
    omega
  exact hbuilding.pde hpage

/-- Where a stack pointer has wrapped around to, there is no page table, and `copyout` reads
the page table of the caller instead. -/
theorem copyout_without_page_table :
    ¬ ∀ (lay : Layout) (w₀ w : World Frame Page Curproc Reply) (steps : List BuildStep) (d : Frame)
      (va len : ℕ) (data : ℕ → ℕ), ExecCaller lay w₀ →
      (build lay steps).run w₀ = (.returned (some d), w) → va + len < 2 ^ 32 →
      ChecksEveryPage lay w d va len data := by
  intro hall
  have hcaller := execWorld_caller fun _ _ => 0
  obtain ⟨d, w, owned, hrun, hbuilding, -⟩ :=
    build_stack_run hcaller (fun _ => rfl) execWorld_free
  have hva : 0xFD000 * PGSIZE + 1 < 2 ^ 32 := by decide
  have hchecks := hall _ _ _ _ _ _ _ (fun i => i) hcaller hrun hva
  have hpage : 0xFD000 * PGSIZE / PGSIZE = 0xFD000 := Nat.mul_div_cancel _ (by decide)
  have hpresent := ((built_of_run hcaller hrun).checks_iff hva.le _).mp hchecks _
    (reached_first Nat.one_pos)
  have habsent : present (w.mem d (0xFD000 / 1024)) = false :=
    hbuilding.kernel.gap _ (by decide) (by decide)
  rw [hpage, habsent] at hpresent
  exact Bool.false_ne_true hpresent

end Xv6.Vm
