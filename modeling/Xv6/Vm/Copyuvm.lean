import Xv6.Vm.Dealloc

/-!
# What `copyuvm` copies

The new page directory maps the pages of the old one below the size, with the same flags and the
same contents, in pages that were free before.

Two address spaces that have no page in common, and whose page tables are out of reach, do not
see each other's writes.  This needs nothing of `copyuvm`: a run of writes is compared with the
run of those that go through one of the page directories.
-/

namespace Xv6.Vm

open Allocation Logic

variable {σ R : Type} {lay : Layout} {w w' : World Frame Page σ R} {d d' pgdir u sz : ℕ}
variable {m m' : Frame → Page}

/-! ## Writes through a page directory -/

/-- What there is at the virtual page `u`: how it is mapped, and what is in it. -/
def seen (m : Frame → Page) (d : Frame) (u : ℕ) : Option (ℕ × Page) :=
  if present (pte m d u) then some (pte m d u, m (PTE_ADDR (pte m d u))) else none

/-- Something is written at a virtual page of the user half. -/
structure UserWrite where
  pgdir : Frame
  page : ℕ
  change : Page → Page
  page_lt : page < userPages

/-- Where no page is mapped, the process does not get so far. -/
def UserWrite.apply (m : Frame → Page) (x : UserWrite) : Frame → Page :=
  if present (pte m x.pgdir x.page) then
    Function.update m (PTE_ADDR (pte m x.pgdir x.page))
      (x.change (m (PTE_ADDR (pte m x.pgdir x.page))))
  else m

/-- The pages that say what is mapped. -/
def maps (m : Frame → Page) (d : Frame) : Multiset Frame := d ::ₘ tables m d

/-- Each of the two address spaces has its own pages, and no user page is part of a page table. -/
structure NoShared (m : Frame → Page) (d d' : Frame) : Prop where
  ne : d ≠ d'
  left : ∀ p ∈ users m d, p ∉ maps m d ∧ p ∉ maps m d'
  right : ∀ p ∈ users m d', p ∉ maps m d ∧ p ∉ maps m d'
  disjoint : ∀ p ∈ users m d, p ∉ users m d'

theorem mem_space_of_maps {p : Frame} (hp : p ∈ maps m d) : p ∈ space m d := by
  rcases Multiset.mem_cons.mp hp with rfl | hp
  · exact dir_mem_space
  · exact mem_space.mpr (Or.inr (Or.inl hp))

theorem mem_space_of_users {p : Frame} (hp : p ∈ users m d) : p ∈ space m d :=
  mem_space.mpr (Or.inr (Or.inr hp))

theorem maps_congr (hd : m' d = m d) : maps m' d = maps m d := by
  rw [maps, maps, tables_congr hd]

theorem pte_congr_maps (h : ∀ p ∈ maps m d, m' p = m p) (hu : u < userPages) :
    pte m' d u = pte m d u :=
  pte_congr (h d (Multiset.mem_cons_self d _)) (fun p hp => h p (Multiset.mem_cons_of_mem hp))
    (hu.trans userPages_lt)

namespace NoShared

theorem symm (h : NoShared m d d') : NoShared m d' d where
  ne := h.ne.symm
  left p hp := (h.right p hp).symm
  right p hp := (h.left p hp).symm
  disjoint p hp hp' := h.disjoint p hp' hp

/-- As long as the page tables stay, the address spaces stay apart. -/
theorem congr (h : NoShared m d d') (hd : ∀ p ∈ maps m d, m' p = m p)
    (hd' : ∀ p ∈ maps m d', m' p = m p) : NoShared m' d d' := by
  have hmaps := maps_congr (hd d (Multiset.mem_cons_self d _))
  have hmaps' := maps_congr (hd' d' (Multiset.mem_cons_self d' _))
  have husers : users m' d = users m d := users_congr fun u hu => pte_congr_maps hd hu
  have husers' : users m' d' = users m d' := users_congr fun u hu => pte_congr_maps hd' hu
  refine ⟨h.ne, ?_, ?_, ?_⟩
  · rw [hmaps, hmaps', husers]
    exact h.left
  · rw [hmaps, hmaps', husers']
    exact h.right
  · rw [husers, husers']
    exact h.disjoint

end NoShared

/-- A write changes nothing but a user page. -/
theorem UserWrite.apply_of_notMem {x : UserWrite} {p : Frame} (hp : p ∉ users m x.pgdir) :
    x.apply m p = m p := by
  by_cases hpresent : present (pte m x.pgdir x.page) = true
  · rw [apply, if_pos hpresent]
    have hmem := mem_users x.page_lt hpresent
    exact Function.update_of_ne (fun heq => hp (by rwa [heq])) _ _
  · rw [apply, if_neg hpresent]

theorem NoShared.write {x : UserWrite} (h : NoShared m d d') (hx : x.pgdir = d ∨ x.pgdir = d') :
    (∀ p ∈ maps m d, x.apply m p = m p) ∧ ∀ p ∈ maps m d', x.apply m p = m p := by
  rcases hx with hx | hx
  · exact ⟨fun p hp => UserWrite.apply_of_notMem fun hu => (h.left p (hx ▸ hu)).1 hp,
      fun p hp => UserWrite.apply_of_notMem fun hu => (h.left p (hx ▸ hu)).2 hp⟩
  · exact ⟨fun p hp => UserWrite.apply_of_notMem fun hu => (h.right p (hx ▸ hu)).1 hp,
      fun p hp => UserWrite.apply_of_notMem fun hu => (h.right p (hx ▸ hu)).2 hp⟩

/-- Through `d` the two memories look the same. -/
def Alike (m m' : Frame → Page) (d : Frame) : Prop :=
  ∀ u < userPages, pte m' d u = pte m d u ∧
    (present (pte m d u) = true → m' (PTE_ADDR (pte m d u)) = m (PTE_ADDR (pte m d u)))

theorem Alike.seen_eq (h : Alike m m' d) (hu : u < userPages) : seen m' d u = seen m d u := by
  obtain ⟨hpte, hdata⟩ := h u hu
  by_cases hpresent : present (pte m d u) = true
  · rw [seen, seen, hpte, if_pos hpresent, if_pos hpresent, hdata hpresent]
  · rw [seen, seen, hpte, if_neg hpresent, if_neg hpresent]

/-- A write through the other page directory makes no difference. -/
theorem Alike.other {x : UserWrite} (h : Alike m m' d) (hapart : NoShared m' d d')
    (hx : x.pgdir = d') : Alike m (x.apply m') d := by
  intro u hu
  obtain ⟨hpte, hdata⟩ := h u hu
  refine ⟨(pte_congr_maps (hapart.write (Or.inr hx)).1 hu).trans hpte, fun hpresent => ?_⟩
  have hmem : PTE_ADDR (pte m d u) ∈ users m' d := hpte ▸ mem_users hu (by rwa [hpte])
  rw [UserWrite.apply_of_notMem (hx ▸ hapart.disjoint _ hmem), hdata hpresent]

/-- A write through `d` makes the same difference to both. -/
theorem Alike.own {x : UserWrite} (h : Alike m m' d) (hapart : NoShared m d d')
    (hapart' : NoShared m' d d') (hx : x.pgdir = d) : Alike (x.apply m) (x.apply m') d := by
  intro u hu
  obtain ⟨hpte, hdata⟩ := h u hu
  obtain ⟨hpte', hdata'⟩ := h x.page x.page_lt
  rw [pte_congr_maps (hapart.write (Or.inl hx)).1 hu,
    pte_congr_maps (hapart'.write (Or.inl hx)).1 hu]
  refine ⟨hpte, fun hpresent => ?_⟩
  rw [UserWrite.apply, UserWrite.apply, hx, hpte']
  by_cases hwritten : present (pte m d x.page) = true
  · rw [if_pos hwritten, if_pos hwritten, hdata' hwritten]
    by_cases heq : PTE_ADDR (pte m d u) = PTE_ADDR (pte m d x.page)
    · rw [heq, Function.update_self, Function.update_self]
    · rw [Function.update_of_ne heq, Function.update_of_ne heq, hdata hpresent]
  · rw [if_neg hwritten, if_neg hwritten]
    exact hdata hpresent

/-- What is seen through `d` depends on the writes through `d` only. -/
theorem NoShared.seen_writes {ws : List UserWrite} (h : NoShared m d d')
    (hws : ∀ x ∈ ws, x.pgdir = d ∨ x.pgdir = d') (hu : u < userPages) :
    seen (ws.foldl UserWrite.apply m) d u =
      seen ((ws.filter fun x => x.pgdir = d).foldl UserWrite.apply m) d u := by
  have hrun : ∀ (ws : List UserWrite) (m m' : Frame → Page), NoShared m d d' → NoShared m' d d' →
      Alike m m' d → (∀ x ∈ ws, x.pgdir = d ∨ x.pgdir = d') →
      Alike ((ws.filter fun x => x.pgdir = d).foldl UserWrite.apply m)
        (ws.foldl UserWrite.apply m') d := by
    intro ws
    induction ws with
    | nil =>
        intro m m' _ _ halike _
        exact halike
    | cons x ws ih =>
        intro m m' hm hm' halike hws
        have hx := hws x List.mem_cons_self
        have hnext := hm'.congr (hm'.write hx).1 (hm'.write hx).2
        have hrest : ∀ y ∈ ws, y.pgdir = d ∨ y.pgdir = d' := fun y hy =>
          hws y (List.mem_cons_of_mem x hy)
        rcases hx with hx | hx
        · rw [List.filter_cons_of_pos (by simpa using hx), List.foldl_cons, List.foldl_cons]
          have hown := hm.write (Or.inl hx)
          exact ih _ _ (hm.congr hown.1 hown.2) hnext (halike.own hm hm' hx) hrest
        · have hne : x.pgdir ≠ d := fun heq => h.ne (heq.symm.trans hx)
          rw [List.filter_cons_of_neg (by simpa using hne), List.foldl_cons]
          exact ih _ _ hm hnext (halike.other hm' hx) hrest
  exact (hrun ws m m h h (fun _ _ => ⟨rfl, fun _ => rfl⟩) hws).seen_eq hu

/-! ## The copy -/

/-- The page directory `d` is new.  It maps the pages below `n` as `pgdir` did, in pages that
were free, and the kernel's pages, and nothing else. -/
structure Duplicate (lay : Layout) (w w' : World Frame Page σ R) (pgdir d n : ℕ) : Prop where
  made : ∀ u < n, present (pte w'.mem d u) = true
  flags : ∀ u < n, PTE_FLAGS (pte w'.mem d u) = PTE_FLAGS (pte w.mem pgdir u)
  contents : ∀ u < n,
    w'.mem (PTE_ADDR (pte w'.mem d u)) = w.mem (PTE_ADDR (pte w.mem pgdir u))
  kernel : ∀ k ∈ kmap lay, ∀ u ∈ k.area, pte w'.mem d u = k.word u
  absent : ∀ u, n ≤ u → u < pages → (∀ k ∈ kmap lay, u ∉ k.area) →
    present (pte w'.mem d u) = false
  distinct : (space w'.mem d).Nodup
  pages : space w'.mem d + (w'.free : Multiset Frame) = w.free

/-- No user page is part of the page tables. -/
def Own (m : Frame → Page) (d : Frame) : Prop := ∀ p ∈ users m d, p ∉ maps m d

theorem CopiedSpace.duplicate {n : ℕ} {owned owned' : Multiset Frame}
    (h : CopiedSpace lay (w.view owned) (w'.view owned') pgdir d n owned)
    (hkept : w.Kept w' owned owned') : Duplicate lay w w' pgdir d n where
  made := h.made
  flags u hu := (h.copied u hu).2.1
  contents u hu := (h.copied u hu).2.2
  kernel := h.kernel
  absent u hn hu hkernel := by
    by_cases huser : u < userPages
    · exact h.absent u hn huser
    · have hnot : u ∉ kernelPages := by
        rw [← @area_kmap lay]
        rintro ⟨k, hk, hmem⟩
        exact hkernel k hk hmem
      have hgap : (KERNBASE + PHYSTOP) / 2 ^ 22 ≤ u / 1024 ∧ u / 1024 < DEVSPACE / 2 ^ 22 := by
        simp only [kernelPages, KERNBASE, PHYSTOP, DEVSPACE, PGSIZE, pages, userPages,
          Set.mem_ofPred_eq, Nat.reducePow] at hnot huser hu ⊢
        omega
      have habsent : present (w'.mem d (u / 1024)) = false := h.gap _ hgap.1 hgap.2
      rw [pte_of_absent habsent, present_zero]
  distinct := h.holds.space_nodup
  pages := by
    have hpages := hkept.pages
    have howned : owned' = owned + space w'.mem d := h.holds.owned
    rw [howned, add_comm, add_assoc, add_comm] at hpages
    exact add_right_cancel hpages

/-- Each page of the copy was free. -/
theorem Duplicate.fresh {n : ℕ} (h : Duplicate lay w w' pgdir d n) {p : Frame}
    (hp : p ∈ space w'.mem d) : p ∈ (w.free : Multiset Frame) :=
  h.pages ▸ Multiset.mem_add.mpr (Or.inl hp)

theorem Duplicate.apart {n : ℕ} (h : Duplicate lay w w' pgdir d n)
    (hkeep : ∀ p ∈ space w.mem pgdir, w'.mem p = w.mem p)
    (hfree : ∀ p ∈ space w.mem pgdir, p ∉ (w.free : Multiset Frame))
    (hown : Own w.mem pgdir) : NoShared w'.mem pgdir d := by
  have hmaps : maps w'.mem pgdir = maps w.mem pgdir := maps_congr (hkeep _ dir_mem_space)
  have husers : users w'.mem pgdir = users w.mem pgdir := users_congr fun u hu =>
    pte_congr_maps (fun p hp => hkeep p (mem_space_of_maps hp)) hu
  have hseparate : ∀ p ∈ space w.mem pgdir, p ∉ space w'.mem d := fun p hp hp' =>
    hfree p hp (h.fresh hp')
  refine ⟨fun heq => ?_, fun p hp => ?_, fun p hp => ?_, fun p hp hp' => ?_⟩
  · exact hseparate pgdir dir_mem_space (heq ▸ dir_mem_space)
  · rw [husers] at hp
    rw [hmaps]
    exact ⟨hown p hp, fun hd => hseparate p (mem_space_of_users hp) (mem_space_of_maps hd)⟩
  · rw [hmaps]
    have hnot := user_notMem h.distinct hp
    refine ⟨fun hd => hseparate p (mem_space_of_maps hd) (mem_space_of_users hp), fun hd => ?_⟩
    rcases Multiset.mem_cons.mp hd with hd | hd
    · exact hnot.1 hd
    · exact hnot.2 hd
  · rw [husers] at hp
    exact hseparate p (mem_space_of_users hp) (mem_space_of_users hp')

/-- How `copyuvm` ends.  `enough` is how many pages there are for sure. -/
theorem copyuvm_ends {enough : ℕ} (h : w.Owns lay.Arena (space w.mem pgdir).dedup)
    (hhas : w.Has (space w.mem pgdir).dedup enough) (hsz : sz ≤ KERNBASE)
    (hpresent : ∀ u < npages sz, present (pte w.mem pgdir u) = true) :
    ∃ r w', (copyuvm lay pgdir sz).run w = (.returned r, w') ∧
      (∀ p ∈ space w.mem pgdir, w'.mem p = w.mem p) ∧
      (r = none → enough ≤ (space w.mem pgdir).dedup.card + npages sz + NPDENTRIES + 1) ∧
      ∀ d, r = some d → Duplicate lay w w' pgdir d (npages sz) := by
  set owned := (space w.mem pgdir).dedup with howned
  have hin : ∀ p ∈ space w.mem pgdir, p ∈ owned := fun p hp => Multiset.mem_dedup.mpr hp
  have hsafe : (sequential lay.Arena (fun _ => True) enough fun _ => False).Safe
      (copyuvm lay pgdir sz : Call σ R (Option Frame)) (fun r v' =>
        (∀ p ∈ space w.mem pgdir, v'.mem p = w.mem p) ∧
        (r = none → enough ≤ owned.card + npages sz + NPDENTRIES + 1) ∧
        ∀ d, r = some d → CopiedSpace lay (w.view owned) v' pgdir d (npages sz) owned)
      (w.view owned) := by
    refine safe_copyuvm_exact rfl (Multiset.nodup_dedup _) (fun p hp => ?_) hsz hin
      (fun u hu habsent => ?_) (fun v' henough hv' => ?_) fun d v' hv' => ?_
    · exact h.arena p (Multiset.mem_add.mpr (Or.inr hp))
    · exact absurd ((hpresent u hu).symm.trans habsent) (by decide)
    · exact ⟨fun p hp => hv'.data p (hin p hp), fun _ => henough, fun d hd => by simp at hd⟩
    · refine ⟨fun p hp => hv'.data p (hin p hp), fun hnone => by simp at hnone, fun d' hd => ?_⟩
      rwa [← Option.some.inj hd]
  have hends := hsafe.run h hhas fun _ => trivial
  generalize (copyuvm lay pgdir sz).run w = result at hends
  obtain ⟨result, w'⟩ := result
  cases result with
  | panicked message =>
      obtain ⟨owned', hfalse⟩ := hends
      exact hfalse.elim
  | returned r =>
      obtain ⟨owned', ⟨hkeep, hnone, hsome⟩, hkept⟩ := hends
      exact ⟨r, w', rfl, hkeep, hnone, fun d hd => (hsome d hd).duplicate hkept⟩

/-- `copyuvm` copies what the page directory maps below `sz`, whatever it is.  It leaves the old
address space as it was, and afterwards the two do not see each other's writes.  It succeeds if
there is enough memory. -/
theorem copyuvm_duplicates (h : w.Owns lay.Arena (space w.mem pgdir).dedup) (hsz : sz ≤ KERNBASE)
    (hpresent : ∀ u < npages sz, present (pte w.mem pgdir u) = true) :
    ∃ r w', (copyuvm lay pgdir sz).run w = (.returned r, w') ∧
      (∀ p ∈ space w.mem pgdir, w'.mem p = w.mem p) ∧
      ((∀ i, w.refuse i = false) → npages sz + NPDENTRIES + 2 ≤ w.free.length → r ≠ none) ∧
      ∀ d, r = some d → Duplicate lay w w' pgdir d (npages sz) ∧
        (Own w.mem pgdir → ∀ ws : List UserWrite,
          (∀ x ∈ ws, x.pgdir = pgdir ∨ x.pgdir = d) → ∀ u < userPages,
          seen (ws.foldl UserWrite.apply w'.mem) pgdir u =
              seen ((ws.filter fun x => x.pgdir = pgdir).foldl UserWrite.apply w'.mem) pgdir u ∧
            seen (ws.foldl UserWrite.apply w'.mem) d u =
              seen ((ws.filter fun x => x.pgdir = d).foldl UserWrite.apply w'.mem) d u) := by
  obtain ⟨r, w', hrun, hkeep, -, hsome⟩ := copyuvm_ends h (Or.inl rfl) hsz hpresent
  refine ⟨r, w', hrun, hkeep, fun hrefuse hroom hnone => ?_, fun d hd => ⟨hsome d hd, ?_⟩⟩
  · have hhas : w.Has (space w.mem pgdir).dedup
        ((space w.mem pgdir).dedup.card + npages sz + NPDENTRIES + 2) :=
      Or.inr ⟨hrefuse, by omega⟩
    obtain ⟨r', w'', hrun', -, hfew, -⟩ := copyuvm_ends h hhas hsz hpresent
    have hr : r = r' := by
      have heq := hrun.symm.trans hrun'
      injection heq with heq
      injection heq
    have := hfew (hr.symm.trans hnone)
    omega
  · intro hown ws hws u hu
    have hfree : ∀ p ∈ space w.mem pgdir, p ∉ (w.free : Multiset Frame) := fun p hp hp' =>
      Multiset.disjoint_left.mp (Multiset.nodup_add.mp h.nodup).2.2 hp'
        (Multiset.mem_dedup.mpr hp)
    have hapart := (hsome d hd).apart hkeep hfree hown
    exact ⟨hapart.seen_writes hws hu,
      hapart.symm.seen_writes (fun x hx => (hws x hx).symm) hu⟩

/-! ## A process of one page, and memory for another -/

def roomyWorld (n : ℕ) (fill : ℕ → Page) : World Frame Page Curproc ℕ :=
  { sampleWorld n fill with free := List.range' 20000 2000 }

theorem roomy_owns {n : ℕ} {fill : ℕ → Page} (hn : n ≤ 10000) :
    (roomyWorld n fill).Owns sampleLayout.Arena (space (roomyWorld n fill).mem 2000).dedup := by
  have hmem : (roomyWorld n fill).mem = sampleMem sampleLayout n fill := rfl
  have hfree : (roomyWorld n fill).free = List.range' 20000 2000 := rfl
  have hbelow : ∀ p : ℕ, p ∈ (space (sampleMem sampleLayout n fill) 2000).dedup →
      sampleLayout.Arena p ∧ p < 20000 := by
    intro p hp
    have hp := Multiset.mem_dedup.mp hp
    refine ⟨(sample_arena (by omega) hp).1, ?_⟩
    rcases mem_space.mp hp with rfl | hp | hp
    · decide
    · have := (mem_sample_tables hp).2
      omega
    · have := (mem_sample_users hp).2
      omega
  rw [hmem]
  refine ⟨?_, fun p hp => ?_⟩
  · rw [hfree, Multiset.nodup_add]
    refine ⟨Multiset.coe_nodup.mpr List.nodup_range', Multiset.nodup_dedup _,
      Multiset.disjoint_left.mpr fun hp hp' => ?_⟩
    have hge := (List.mem_range'_1.mp (Multiset.mem_coe.mp hp)).1
    exact absurd (hbelow _ hp').2 (Nat.not_lt.mpr hge)
  · rw [hfree] at hp
    rcases Multiset.mem_add.mp hp with hp | hp
    · have hbounds := List.mem_range'_1.mp (Multiset.mem_coe.mp hp)
      refine ⟨le_trans (by decide) hbounds.1, hbounds.2.trans_le (by decide)⟩
    · exact (hbelow p hp).1

/-- The page is copied. -/
theorem copyuvm_page : ∃ d w', (copyuvm sampleLayout 2000 4096).run (roomyWorld 1 fun _ _ => 7) =
    (.returned (some d), w') ∧ w'.mem (PTE_ADDR (pte w'.mem d 0)) = fun _ => 7 := by
  have hpages : npages 4096 = 1 := rfl
  have hmem : (roomyWorld 1 fun _ _ => 7).mem = sampleMem sampleLayout 1 fun _ _ => 7 := rfl
  have hfirst : pte (sampleMem sampleLayout 1 fun _ _ => 7) 2000 0 =
      (10000 + 0) * PGSIZE ||| (PTE_W ||| PTE_U) ||| PTE_P :=
    (pte_sample (by unfold userPages; decide)).trans (if_pos Nat.one_pos)
  have hpresent : ∀ u < npages 4096,
      present (pte (roomyWorld 1 fun _ _ => 7).mem 2000 u) = true := by
    intro u hu
    rw [hpages] at hu
    rw [show u = 0 by omega, hmem, hfirst, present_pte]
  obtain ⟨r, w', hrun, -, hroom, hcopy⟩ :=
    copyuvm_duplicates (roomy_owns (by decide)) (by decide) hpresent
  have hfree : (roomyWorld 1 fun _ _ => 7).free.length = 2000 := List.length_range'
  have hsome := hroom (fun _ => rfl) (by
    rw [hpages, hfree]
    unfold NPDENTRIES
    decide)
  obtain ⟨d, rfl⟩ := Option.ne_none_iff_exists'.mp hsome
  refine ⟨d, w', hrun, ?_⟩
  rw [(hcopy d rfl).1.contents 0 (by decide), hmem, hfirst, PTE_ADDR_pte (by decide),
    sampleMem_user]

end Xv6.Vm
