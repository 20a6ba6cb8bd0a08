import Xv6.Vm.UserMemory

/-!
# What an address space holds

`NewImage` is an address space under construction of which every byte is known: below the
last page they are those of a function `f`, and `opened` are the pages that the user may
access.  Each function that `exec` calls for the new address space changes `f` as it
should, or fails.

New pages are full of zeros, so `f` is 0 from the last page on, and `allocuvm` does not
change it.
-/

namespace Xv6.Vm

open Allocation Logic

variable {lay : Layout} {v v' : View Frame Page Curproc} {d u sz : ℕ} {F : Multiset Frame}
variable {m₀ : Frame → Page} {panics : View Frame Page Curproc → Prop} {enough : ℕ}
variable {answers : Reply → Prop} {f g : ℕ → ℕ} {opened : ℕ → Bool} {va n len : ℕ} {data : ℕ → ℕ}

structure NewImage (lay : Layout) (m₀ : Frame → Page) (v : View Frame Page Curproc) (d : Frame)
    (F : Multiset Frame) (sz : ℕ) (f : ℕ → ℕ) (opened : ℕ → Bool) : Prop where
  building : Building lay m₀ v d F sz
  bytes : ∀ a < npages sz * PGSIZE, ubyte v.mem d a = f a
  rest : ∀ a, npages sz * PGSIZE ≤ a → f a = 0
  user : ∀ u < npages sz, user (pte v.mem d u) = opened u

/-- `f` with the bytes `[va, va + n)` of `data`. -/
def overlay (va n : ℕ) (data f : ℕ → ℕ) : ℕ → ℕ := fun a =>
  if va ≤ a ∧ a < va + n then data (a - va) else f a

theorem lt_pages_of_lt {a : ℕ} : a / PGSIZE < npages sz ↔ a < npages sz * PGSIZE :=
  Nat.div_lt_iff_lt_mul (by decide)

namespace NewImage

theorem page_lt (h : NewImage lay m₀ v d F sz f opened) (hu : u < npages sz) : u < userPages :=
  hu.trans_le (npages_le h.building.covers.le)

theorem present (h : NewImage lay m₀ v d F sz f opened) (hu : u < npages sz) :
    present (pte v.mem d u) = true :=
  (h.building.covers.mapped u (h.page_lt hu)).mpr hu

/-- An address space without user pages. -/
theorem fresh (h : Building lay m₀ v d F 0) : NewImage lay m₀ v d F 0 (fun _ => 0) opened where
  building := h
  bytes a ha := by simp [npages, PGSIZE] at ha
  rest _ _ := rfl
  user u hu := by simp [npages, PGSIZE] at hu

theorem roundUp (h : NewImage lay m₀ v d F sz f opened) :
    NewImage lay m₀ v d F (PGROUNDUP sz) f opened := by
  refine ⟨h.building.roundUp, ?_, ?_, ?_⟩
  · rw [npages_PGROUNDUP]
    exact h.bytes
  · rw [npages_PGROUNDUP]
    exact h.rest
  · rw [npages_PGROUNDUP]
    exact h.user

/-! ## `allocuvm` and `clearpteu` -/

theorem grown (h : NewImage lay m₀ v d F sz f fun _ => true) {sz' : ℕ} (hle : sz ≤ sz')
    (hsz' : sz' ≤ KERNBASE) (hgrown : Grown lay v v' d F (npages sz) (npages sz'))
    (hzero : Zeroed v'.mem d (npages sz) (npages sz')) :
    NewImage lay m₀ v' d F sz' f fun _ => true := by
  have hmono := npages_mono hle
  have hlast := npages_le hsz'
  -- the pages that were there
  have hold : ∀ u < npages sz, pte v'.mem d u = pte v.mem d u ∧
      v'.mem (PTE_ADDR (pte v.mem d u)) = v.mem (PTE_ADDR (pte v.mem d u)) := by
    intro u hu
    have huser := h.page_lt hu
    have hmem := h.building.user_mem hu
    obtain ⟨hpd, hpt⟩ := user_notMem h.building.holds.space_nodup hmem
    refine ⟨hgrown.others u (huser.trans userPages_lt) (by omega), ?_⟩
    exact hgrown.data _ (h.building.owned_of_user hmem) hpd hpt
  refine ⟨h.building.grown hle hsz' hgrown, fun a ha => ?_, fun a ha => h.rest a ?_,
    fun u hu => ?_⟩
  · by_cases hlow : a / PGSIZE < npages sz
    · obtain ⟨hpte, hpage⟩ := hold _ hlow
      rw [ubyte, hpte, hpage]
      exact h.bytes a (lt_pages_of_lt.mp hlow)
    · obtain ⟨-, hpage⟩ := hzero (a / PGSIZE) (by omega) (lt_pages_of_lt.mpr ha)
      rw [ubyte, hpage, h.rest a (by rw [← not_lt, ← lt_pages_of_lt]; exact hlow)]
      simp [byte]
  · exact (Nat.mul_le_mul_right PGSIZE hmono).trans ha
  · by_cases hlow : u < npages sz
    · rw [(hold u hlow).1]
      exact h.user u hlow
    · exact (hzero u (by omega) hu).1

theorem safe_allocuvm {Q : ℕ → View Frame Page Curproc → Prop} {newsz : ℕ}
    (h : NewImage lay m₀ v d F sz f fun _ => true)
    (hzero : ∀ v', Held lay m₀ v' d F → v'.ghost = v.ghost → Q 0 v')
    (hsome : ∀ v', max sz newsz ≠ 0 → (NewImage lay m₀ v' d F (max sz newsz) f fun _ => true) →
      v'.ghost = v.ghost → Q (max sz newsz) v') :
    (execLogic lay answers enough panics).Safe
      (allocuvm lay d sz newsz : Call Curproc Reply ℕ) Q v := by
  have hbuilding := h.building
  refine Vm.safe_allocuvm rfl hbuilding.holds (fun hlt u hlo hu => ?_) (fun _ => ?_)
    (fun hless => ?_) (fun v' _ hv' => ?_) fun hlt hle v' hv' hzeroed => ?_
  · exact hbuilding.covers.absent (hu.trans_le (npages_le hlt.le)) hlo
  · exact hzero v hbuilding.held rfl
  · have hmax : max sz newsz = sz := max_eq_left hless.le
    rw [hmax] at hsome
    exact hsome v (by omega) h rfl
  · refine hzero v' ⟨hv'.holds, fun p hp => ?_⟩ hv'.ghost
    exact (hv'.data p (Multiset.mem_add.mpr (Or.inl hp))).trans (hbuilding.data p hp)
  · have himage := h.grown hle hlt.le hv' hzeroed
    have hmax : max sz newsz = newsz := max_eq_right hle
    rw [hmax] at hsome
    by_cases hnew : newsz = 0
    · subst hnew
      exact hzero v' himage.building.held hv'.ghost
    · exact hsome v' hnew himage hv'.ghost

theorem user_clearUser (w : ℕ) : Vm.user (clearUser w) = false := by
  unfold clearUser
  split
  · rename_i huser
    rw [user_iff] at huser
    rw [← Bool.not_eq_true, user_iff]
    unfold PTE_U
    omega
  · rename_i huser
    simpa using huser

theorem safe_clearpteu {Q : Unit → View Frame Page Curproc → Prop}
    (h : NewImage lay m₀ v d F sz f opened) (hu : u < npages sz)
    (hQ : ∀ v', NewImage lay m₀ v' d F sz f (Function.update opened u false) →
      v'.ghost = v.ghost → Q () v') :
    (execLogic lay answers enough panics).Safe (clearpteu d (u * PGSIZE)) Q v := by
  refine h.building.safe_clearpteu hu fun v' hcleared hv' hghost => hQ v' ?_ hghost
  have hpte : ∀ k < npages sz, pte v'.mem d k = _ := fun k hk =>
    hcleared.entries k ((h.page_lt hk).trans userPages_lt)
  refine ⟨hv', fun a ha => ?_, h.rest, fun k hk => ?_⟩
  · have hk := lt_pages_of_lt.mpr ha
    have haddr : PTE_ADDR (pte v'.mem d (a / PGSIZE)) = PTE_ADDR (pte v.mem d (a / PGSIZE)) := by
      rw [hpte _ hk]
      split
      · rename_i heq
        rw [PTE_ADDR_clearUser, heq]
      · rfl
    rw [ubyte, haddr, hcleared.users _ (h.building.user_mem hk)]
    exact h.bytes a ha
  · rw [hpte k hk]
    by_cases heq : k = u
    · rw [if_pos heq, heq, Function.update_self, user_clearUser]
    · rw [if_neg heq, Function.update_of_ne heq]
      exact h.user k hk

/-! ## Bytes that are written -/

/-- `n` bytes are written, all of them below the last page. -/
theorem copied {m : Frame → Page} (h : NewImage lay m₀ v d F sz f opened)
    (hcopied : Copied v.mem m d va n data) (hfit : n = 0 ∨ va + n ≤ npages sz * PGSIZE) :
    NewImage lay m₀ { v with mem := m } d F sz (overlay va n (fun i => data i % 256) f) opened := by
  have hpte : ∀ u < npages sz, pte m d u = pte v.mem d u := fun u hu =>
    hcopied.pte_eq ((h.page_lt hu).trans userPages_lt)
  refine ⟨h.building.congr hcopied.dir hcopied.tables fun p hp => ?_, fun a ha => ?_,
    fun a ha => ?_, fun u hu => ?_⟩
  · rw [hcopied.others p, h.building.data p hp]
    exact fun huser => h.building.holds.notMem_space hp (mem_space.mpr (Or.inr (Or.inr huser)))
  · have hk := lt_pages_of_lt.mpr ha
    have hle := npages_le h.building.covers.le
    have hbase : KERNBASE = userPages * PGSIZE := by
      unfold userPages
      decide
    have hlow : a < KERNBASE := by
      rw [hbase]
      exact ha.trans_le (Nat.mul_le_mul_right PGSIZE hle)
    rw [hcopied.bytes a hlow (h.present hk), overlay, h.bytes a ha]
  · rw [overlay, if_neg (by omega), h.rest a ha]
  · rw [hpte u hu, h.user u hu]

/-- Bytes of one page are written. -/
theorem putBytes {k : ℕ} (h : NewImage lay m₀ v d F sz f opened) (hk : k < npages sz) (start : ℕ)
    (data : ℕ → ℕ) (hfit : start + n ≤ PGSIZE) :
    NewImage lay m₀ { v with
      mem := Function.update v.mem (PTE_ADDR (pte v.mem d k))
        (Vm.putBytes start n data (v.mem (PTE_ADDR (pte v.mem d k)))) } d F sz
      (overlay (k * PGSIZE + start) n (fun i => data i % 256) f) opened := by
  refine h.copied (Copied.page h.building.holds.space_nodup (h.page_lt hk) (h.present hk) hfit)
    (Or.inr ?_)
  have hnext : (k + 1) * PGSIZE ≤ npages sz * PGSIZE := Nat.mul_le_mul_right PGSIZE hk
  rw [Nat.add_one_mul] at hnext
  omega

end NewImage

/-! ## `loaduvm` -/

def fileByte (file : List UInt8) (i : ℕ) : ℕ := (file.getD i 0).toNat

/-- Where `readi` returns `n`, there are `n` bytes from `off` on, and it has stored them. -/
def Reads (file : List UInt8) (reply : Reply) : Prop :=
  ∀ off n : ℕ, reply.count off n = n → off + n ≤ file.length ∧ n ≤ reply.written off n ∧
    ∀ i < n, reply.data off n i = fileByte file (off + i)

variable {file : List UInt8}

end Xv6.Vm
