import Mathlib.Algebra.BigOperators.Intervals
import Xv6.Vm.Growproc

/-!
# What `deallocuvm` skips

Where a page table is missing, `deallocuvm` goes on at the next entry of the page directory.
A loop over all pages would find nothing on the way, and so does the same.  Of what is freed,
each page is freed once.

When `allocuvm` fails it calls `deallocuvm` for all pages that were asked for.  This takes back
what has been added, unless a page was there before.
-/

namespace Xv6.Vm

open Allocation Logic

variable {σ R α β : Type} {lay : Layout} {w w' : World Frame Page σ R} {d u k oldsz newsz : ℕ}

/-! ## Page by page -/

/-- The loop of `deallocuvm` without the jump. -/
def visitFrom (lay : Layout) (pgdir : Frame) (oldsz a : ℕ) : Call σ R Unit :=
  if a < oldsz then do
    match ← walkpgdir pgdir a false with
    | none => visitFrom lay pgdir oldsz (a + PGSIZE)
    | some (pgtab, i) =>
        let pte ← load pgtab i
        if present pte then
          if PTE_ADDR pte = 0 then .panic "kfree"
          else
            kfree lay (PTE_ADDR pte)
            store pgtab i 0
            visitFrom lay pgdir oldsz (a + PGSIZE)
        else visitFrom lay pgdir oldsz (a + PGSIZE)
  else pure ()
termination_by oldsz - a
decreasing_by
  all_goals simp only [PGSIZE]; omega

def visituvm (lay : Layout) (pgdir : Frame) (oldsz newsz : ℕ) : Call σ R ℕ :=
  if newsz ≥ oldsz then pure oldsz
  else do
    visitFrom lay pgdir oldsz (PGROUNDUP newsz)
    pure newsz

theorem run_walkpgdir {va : ℕ} {f : Option (Frame × ℕ) → Call σ R α} :
    ((walkpgdir d va false).bind f).run w =
      (f (if present (w.mem d (PDX va)) then some (PTE_ADDR (w.mem d (PDX va)), PTX va)
        else none)).run w := by
  cases hpde : present (w.mem d (PDX va)) with
  | true => simp [walkpgdir, load, Comp.bind, Comp.run, hpde]
  | false => simp [walkpgdir, load, Comp.bind, Comp.run, hpde]

/-- Where there is no page table, nothing happens. -/
theorem run_visitFrom_absent (hpde : present (w.mem d (k / 1024)) = false) :
    (visitFrom lay d oldsz (k * PGSIZE)).run w =
      (visitFrom lay d oldsz ((k / 1024 + 1) * 1024 * PGSIZE)).run w := by
  induction hn : (k / 1024 + 1) * 1024 - k using Nat.strong_induction_on generalizing k with
  | _ n ih =>
  by_cases hlt : k * PGSIZE < oldsz
  · have hstep : (visitFrom lay d oldsz (k * PGSIZE)).run w =
        (visitFrom lay d oldsz ((k + 1) * PGSIZE)).run w := by
      rw [visitFrom, if_pos hlt, Comp.bind_eq, run_walkpgdir, PDX_eq,
        Nat.mul_div_cancel k (by decide), hpde, Nat.add_one_mul]
      rfl
    rw [hstep]
    by_cases hsame : (k + 1) / 1024 = k / 1024
    · have := ih ((k / 1024 + 1) * 1024 - (k + 1)) (by omega) (k := k + 1) (by rwa [hsame])
      rw [hsame] at this
      exact this rfl
    · rw [show (k / 1024 + 1) * 1024 = k + 1 by omega]
  · rw [visitFrom, if_neg hlt, visitFrom, if_neg]
    have hle : k * PGSIZE ≤ (k / 1024 + 1) * 1024 * PGSIZE := Nat.mul_le_mul_right _ (by omega)
    omega

theorem run_deallocFrom : (deallocFrom lay d oldsz (k * PGSIZE)).run w =
    (visitFrom lay d oldsz (k * PGSIZE)).run w := by
  induction hn : oldsz - k * PGSIZE using Nat.strong_induction_on generalizing k w with
  | _ n ih =>
  by_cases hlt : k * PGSIZE < oldsz
  · have hcancel : k * PGSIZE / PGSIZE = k := Nat.mul_div_cancel k (by decide)
    have hnext : k * PGSIZE + PGSIZE = (k + 1) * PGSIZE := (Nat.add_one_mul k PGSIZE).symm
    have hrest : ∀ w : World Frame Page σ R, (deallocFrom lay d oldsz (k * PGSIZE + PGSIZE)).run w =
        (visitFrom lay d oldsz (k * PGSIZE + PGSIZE)).run w := by
      intro w
      rw [hnext]
      refine ih (oldsz - (k + 1) * PGSIZE) ?_ rfl
      rw [← hn]
      unfold PGSIZE at hlt ⊢
      omega
    cases hpde : present (w.mem d (k / 1024)) with
    | false =>
        -- the jump goes to the next entry of the page directory
        have hjump : (PDX (k * PGSIZE) + 1) * 2 ^ 22 - PGSIZE + PGSIZE =
            (k / 1024 + 1) * 1024 * PGSIZE := by
          rw [PDX_eq, hcancel]
          unfold PGSIZE
          omega
        have hfurther : oldsz - (k / 1024 + 1) * 1024 * PGSIZE < n := by
          unfold PGSIZE at hlt hn ⊢
          omega
        calc (deallocFrom lay d oldsz (k * PGSIZE)).run w
            = (deallocFrom lay d oldsz ((k / 1024 + 1) * 1024 * PGSIZE)).run w := by
              rw [deallocFrom, if_pos hlt, Comp.bind_eq, run_walkpgdir, PDX_eq, hcancel, hpde,
                ← hjump, PDX_eq, hcancel]
              rfl
          _ = (visitFrom lay d oldsz ((k / 1024 + 1) * 1024 * PGSIZE)).run w := ih _ hfurther rfl
          _ = (visitFrom lay d oldsz (k * PGSIZE)).run w := (run_visitFrom_absent hpde).symm
    | true =>
        rw [deallocFrom, if_pos hlt, visitFrom, if_pos hlt, Comp.bind_eq, Comp.bind_eq,
          run_walkpgdir, run_walkpgdir, PDX_eq, hcancel, if_pos hpde]
        dsimp only
        apply Comp.run_bind_congr
        intro pte w
        by_cases hpte : present pte = true
        · rw [if_pos hpte, if_pos hpte]
          by_cases hzero : PTE_ADDR pte = 0
          · rw [if_pos hzero, if_pos hzero]
          · rw [if_neg hzero, if_neg hzero]
            apply Comp.run_bind_congr
            intro _ w
            apply Comp.run_bind_congr
            intro _ w
            exact hrest w
        · rw [if_neg hpte, if_neg hpte]
          exact hrest w
  · rw [deallocFrom, if_neg hlt, visitFrom, if_neg hlt]

theorem PGROUNDUP_eq (sz : ℕ) : PGROUNDUP sz = npages sz * PGSIZE := rfl

/-- In every memory the jump makes no difference. -/
theorem run_deallocuvm : (deallocuvm lay d oldsz newsz).run w =
    (visituvm lay d oldsz newsz).run w := by
  rw [deallocuvm, visituvm]
  by_cases hle : newsz ≥ oldsz
  · rw [if_pos hle, if_pos hle]
  · rw [if_neg hle, if_neg hle, PGROUNDUP_eq, Comp.bind_eq, Comp.bind_eq]
    exact Comp.run_bind_left run_deallocFrom

/-! ## What is freed -/

/-- The pages of the user pages from `lo` up to `hi`. -/
def usersFrom (m : Frame → Page) (d lo hi : ℕ) : Multiset Frame :=
  ∑ u ∈ Finset.Ico lo hi, entry (pte m d u)

theorem Unmapped.users_eq {G : Type} {v v' : View Frame Page G} {F : Multiset Frame} {lo hi : ℕ}
    (h : Unmapped lay v v' d F lo hi) (hhi : hi ≤ userPages) :
    users v.mem d = users v'.mem d + usersFrom v.mem d lo hi := by
  have hentry : ∀ u ∈ Finset.range userPages, entry (pte v.mem d u) =
      entry (pte v'.mem d u) + if u ∈ Finset.Ico lo hi then entry (pte v.mem d u) else 0 := by
    intro u hu
    rw [h.entries u ((Finset.mem_range.mp hu).trans userPages_lt)]
    by_cases hmem : u ∈ Finset.Ico lo hi
    · have hin := Finset.mem_Ico.mp hmem
      rw [if_pos hmem]
      by_cases hpresent : present (pte v.mem d u) = true
      · rw [if_pos ⟨hin.1, hin.2, hpresent⟩, entry_zero, zero_add]
      · rw [if_neg fun h => hpresent h.2.2, entry_of_absent (by simpa using hpresent), add_zero]
    · rw [if_neg hmem, if_neg fun h => hmem (Finset.mem_Ico.mpr ⟨h.1, h.2.1⟩), add_zero]
  have hinter : Finset.range userPages ∩ Finset.Ico lo hi = Finset.Ico lo hi := by
    ext u
    rw [Finset.mem_inter, Finset.mem_range, Finset.mem_Ico]
    omega
  calc users v.mem d
      = ∑ u ∈ Finset.range userPages, (entry (pte v'.mem d u) +
          if u ∈ Finset.Ico lo hi then entry (pte v.mem d u) else 0) :=
        Finset.sum_congr rfl hentry
    _ = users v'.mem d + usersFrom v.mem d lo hi := by
        rw [Finset.sum_add_distrib, Finset.sum_ite_mem, hinter, users, usersFrom]

/-- The entries of the present pages in the range have been cleared, and these pages are free,
each once.  The rest of the address space has not changed. -/
structure Deallocated (w w' : World Frame Page σ R) (d oldsz newsz : ℕ) : Prop where
  entries : ∀ u < pages, pte w'.mem d u =
    if npages newsz ≤ u ∧ u < npages oldsz ∧ present (pte w.mem d u) = true then 0
    else pte w.mem d u
  freed : (w'.free : Multiset Frame) =
    usersFrom w.mem d (npages newsz) (npages oldsz) + w.free
  dir : w'.mem d = w.mem d
  data : ∀ p ∈ users w'.mem d, w'.mem p = w.mem p
  others : ∀ p, p ∉ (w.free : Multiset Frame) + space w.mem d → w'.mem p = w.mem p

theorem World.Owns.holds (h : w.Owns lay.Arena (space w.mem d)) :
    Holds lay (w.view (space w.mem d)) d 0 where
  owned := (zero_add _).symm
  nodup := (Multiset.nodup_add.mp h.nodup).2.1
  arena p hp := h.arena p (Multiset.mem_add.mpr (Or.inr hp))

theorem deallocuvm_exact (h : w.Owns lay.Arena (space w.mem d)) (hold : oldsz ≤ KERNBASE) :
    ∃ w', (deallocuvm lay d oldsz newsz).run w =
        (.returned (if newsz ≥ oldsz then oldsz else newsz), w') ∧
      Deallocated w w' d oldsz newsz := by
  have hv := World.Owns.holds h
  have hsafe : (sequential lay.Arena (fun _ => True) 0 fun _ => False).Safe
      (deallocuvm lay d oldsz newsz : Call σ R ℕ)
      (fun r v' => r = (if newsz ≥ oldsz then oldsz else newsz) ∧
        Unmapped lay (w.view (space w.mem d)) v' d 0 (npages newsz) (npages oldsz))
      (w.view (space w.mem d)) :=
    safe_deallocuvm hold hv fun v' hv' => ⟨rfl, hv'⟩
  have hends := hsafe.run h (Or.inl rfl) fun _ => trivial
  generalize (deallocuvm lay d oldsz newsz).run w = result at hends
  obtain ⟨result, w'⟩ := result
  cases result with
  | panicked message =>
      obtain ⟨owned', hfalse⟩ := hends
      exact hfalse.elim
  | returned r =>
      obtain ⟨owned', ⟨rfl, hunmapped⟩, hkept⟩ := hends
      have howned : owned' = space w'.mem d := hunmapped.holds.owned.trans (zero_add _)
      have hdir : w'.mem d = w.mem d := hunmapped.dir
      have husers : users w.mem d =
          users w'.mem d + usersFrom w.mem d (npages newsz) (npages oldsz) :=
        hunmapped.users_eq (npages_le hold)
      refine ⟨w', rfl, hunmapped.entries, ?_, hdir, fun p hp => ?_, hkept.others⟩
      · have hpages := hkept.pages
        rw [howned, space, space, tables_congr hdir, husers] at hpages
        apply add_right_cancel (b := d ::ₘ (tables w.mem d + users w'.mem d))
        rw [hpages]
        simp only [← Multiset.singleton_add]
        ac_rfl
      · have hmem : p ∈ owned' := howned ▸ mem_space.mpr (Or.inr (Or.inr hp))
        have hnot : p ∉ tables w'.mem d := (user_notMem hunmapped.holds.space_nodup hp).2
        rw [tables_congr hdir] at hnot
        exact hunmapped.data p hmem hnot

/-! ## What is restored -/

/-- Each page is mapped as before, with the same contents. -/
structure PutBack (w w' : World Frame Page σ R) (d : Frame) : Prop where
  mapping : ∀ u < pages, mapping w'.mem d u = mapping w.mem d u
  data : ∀ p ∈ users w.mem d, w'.mem p = w.mem p

/-- If an allocation fails `allocuvm` returns 0, and then everything is as it was. -/
theorem allocuvm_restores (h : w.Owns lay.Arena (space w.mem d))
    (habsent : ∀ u, npages oldsz ≤ u → u < npages newsz → present (pte w.mem d u) = false) :
    ∃ r w', (allocuvm lay d oldsz newsz).run w = (.returned r, w') ∧
      (r = 0 → PutBack w w' d) ∧ (w.failed = false → w'.failed = true → r = 0) := by
  have hv := World.Owns.holds h
  have hsafe : (sequential lay.Arena (fun _ => True) 0 fun _ => False).Safe
      (allocuvm lay d oldsz newsz : Call σ R ℕ) (fun r v' =>
        (r = 0 → (∀ u < pages, mapping v'.mem d u = mapping w.mem d u) ∧
          ∀ p ∈ users w.mem d, v'.mem p = w.mem p) ∧
        (w.failed = false → v'.failed = true → r = 0)) (w.view (space w.mem d)) := by
    refine safe_allocuvm rfl hv (fun _ => habsent) (fun _ => ?_) (fun hlt => ?_)
      (fun v' _ hv' => ?_) fun _ _ v' hv' _ => ?_
    · exact ⟨fun _ => ⟨fun _ _ => rfl, fun _ _ => rfl⟩, fun _ _ => rfl⟩
    · refine ⟨fun hzero => by omega, fun hno hfailed => ?_⟩
      exact absurd (hno.symm.trans hfailed) Bool.false_ne_true
    · refine ⟨fun _ => ⟨hv'.mapping, fun p hp => hv'.data p ?_⟩, fun _ _ => rfl⟩
      exact Multiset.mem_add.mpr (Or.inr hp)
    · constructor
      · rintro rfl
        refine ⟨fun u hu => ?_, fun p hp => ?_⟩
        · have hnone : npages 0 = 0 := rfl
          have hsame := hv'.others u hu (by omega)
          unfold mapping
          rw [hsame]
          rfl
        · have hnot := user_notMem hv.space_nodup hp
          have howned : p ∈ space w.mem d := mem_space.mpr (Or.inr (Or.inr hp))
          exact hv'.data p howned hnot.1 hnot.2
      · intro hno hfailed
        exact absurd (hno.symm.trans (hv'.failed.symm.trans hfailed)) Bool.false_ne_true
  have hends := hsafe.run h (Or.inl rfl) fun _ => trivial
  generalize (allocuvm lay d oldsz newsz).run w = result at hends
  obtain ⟨result, w'⟩ := result
  cases result with
  | panicked message =>
      obtain ⟨owned', hfalse⟩ := hends
      exact hfalse.elim
  | returned r =>
      obtain ⟨owned', ⟨hrestored, hzero⟩, -⟩ := hends
      exact ⟨r, w', rfl, fun hr => ⟨(hrestored hr).1, (hrestored hr).2⟩, hzero⟩

/-- `deallocuvm` frees and clears the present pages of the range and nothing else, as if it had
looked at each page.  An `allocuvm` that fails restores the mapping, if it began with none of
the new pages. -/
theorem dealloc_skips_alloc_restores (h : w.Owns lay.Arena (space w.mem d))
    (hold : oldsz ≤ KERNBASE) :
    (∃ w', (deallocuvm lay d oldsz newsz).run w =
        (.returned (if newsz ≥ oldsz then oldsz else newsz), w') ∧
      Deallocated w w' d oldsz newsz) ∧
    (deallocuvm lay d oldsz newsz).run w = (visituvm lay d oldsz newsz).run w ∧
    ((∀ u, npages oldsz ≤ u → u < npages newsz → present (pte w.mem d u) = false) →
      ∃ r w', (allocuvm lay d oldsz newsz).run w = (.returned r, w') ∧
        (r = 0 → PutBack w w' d) ∧ (w.failed = false → w'.failed = true → r = 0)) :=
  ⟨deallocuvm_exact h hold, run_deallocuvm, allocuvm_restores h⟩

/-! ## A process of one page -/

theorem sample_owns : (sampleWorld 1 fun _ _ => 0).Owns sampleLayout.Arena
    (space (sampleWorld 1 fun _ _ => 0).mem 2000) := (sample_running (by decide)).owns

theorem first_present : present (pte (sampleWorld 1 fun _ _ => 0).mem 2000 0) = true :=
  ((sample_running (by decide)).covers.mapped 0 (by unfold userPages; decide)).mpr (by decide)

/-- The page is freed. -/
theorem dealloc_sample : ∃ w', (deallocuvm sampleLayout 2000 4096 0).run
    (sampleWorld 1 fun _ _ => 0) = (.returned 0, w') ∧ pte w'.mem 2000 0 = 0 := by
  obtain ⟨⟨w', hrun, hexact⟩, -, -⟩ :=
    @dealloc_skips_alloc_restores _ _ sampleLayout _ 2000 4096 0 sample_owns (by decide)
  refine ⟨w', hrun, ?_⟩
  rw [hexact.entries 0 (by decide), if_pos ⟨by decide, by decide, first_present⟩]

/-- If the page is there when it is asked for, and there is no memory, it is taken away. -/
theorem alloc_takes_page :
    ¬ ∀ (lay : Layout) (w : World Frame Page Curproc ℕ) (d oldsz newsz : ℕ),
      w.Owns lay.Arena (space w.mem d) → oldsz ≤ KERNBASE →
      ∀ w', (allocuvm lay d oldsz newsz).run w = (.returned 0, w') → PutBack w w' d := by
  intro hall
  have howns := sample_owns
  have hfirst := first_present
  generalize hw : (sampleWorld 1 fun _ _ => 0) = w at howns hfirst
  have hoffer : w.offer = none := by
    rw [← hw]
    rfl
  have hfree := World.allocated_free_of_none hoffer
  have howns' : w.allocated.Owns sampleLayout.Arena (space w.allocated.mem 2000) :=
    ⟨by rw [hfree]; exact howns.nodup, by rw [hfree]; exact howns.arena⟩
  obtain ⟨w', hrun, hexact⟩ := @deallocuvm_exact _ _ sampleLayout _ 2000 4096 0 howns' (by decide)
  have halloc : (allocuvm sampleLayout 2000 0 4096).run w = (.returned 0, w') := by
    rw [allocuvm, if_neg (by decide), if_neg (by decide), allocFrom, if_pos (by decide), kalloc,
      Comp.bind_eq, Comp.bind, Comp.run, hoffer]
    exact Comp.run_bind hrun
  have hsame := (hall sampleLayout w 2000 0 4096 howns (by decide) w' halloc).mapping 0 (by decide)
  have hgone : pte w'.mem 2000 0 = 0 := by
    rw [hexact.entries 0 (by decide), if_pos ⟨by decide, by decide, hfirst⟩]
  rw [mapping, mapping, hgone, present_zero, if_pos hfirst] at hsame
  simp at hsame

end Xv6.Vm
