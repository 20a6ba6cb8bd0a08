import Xv6.Vm.Grow
import Xv6.Vm.Sample
import Mathlib.Data.Int.ModEq

/-!
# `growproc`

`sbrk` changes the size of the running process.  `growproc` takes the size 0 that
`deallocuvm` returns for its error value, and does not see that the new size has
wrapped around where `deallocuvm` returns the old one.  In every other case it is
exact, or fails without effect.
-/

namespace Xv6.Vm

open Allocation Logic

/-- The running process: what the functions below use of its `struct proc` and of its
trap frame, the page directory in `%cr3`, and what its system call holds of the file
system: how often it has called `begin_op` and `end_op`, and the inode locks and
references that it has taken and not given back. -/
structure Curproc where
  sz : ℕ
  pgdir : Frame
  kstack : Frame
  name : List ℕ
  eip : ℕ
  esp : ℕ
  cr3 : Frame
  begun : ℕ
  ended : ℕ
  locks : ℕ
  refs : ℕ

variable {R : Type}

/-! ## The code -/

def myproc : Call Curproc R Curproc := .act id .ret

def setproc (f : Curproc → Curproc) : Call Curproc R Unit := .act f fun _ => .ret ()

def switchuvm : Call Curproc R Unit := do
  let p ← myproc
  if p.kstack = 0 then .panic "switchuvm: no kstack"
  else if p.pgdir = 0 then .panic "switchuvm: no pgdir"
  else setproc fun p => { p with cr3 := p.pgdir }

/-- `sz + n`, of a `uint` and an `int` -/
def addInt (sz : ℕ) (n : ℤ) : ℕ := ((sz + n) % 2 ^ 32).toNat

def setSize (sz : ℕ) : Call Curproc R ℤ := do
  setproc fun p => { p with sz := sz }
  switchuvm
  pure 0

def growproc (lay : Layout) (n : ℤ) : Call Curproc R ℤ := do
  let curproc ← myproc
  if n > 0 then
    let sz ← allocuvm lay curproc.pgdir curproc.sz (addInt curproc.sz n)
    if sz = 0 then pure (-1) else setSize sz
  else if n < 0 then
    let sz ← deallocuvm lay curproc.pgdir curproc.sz (addInt curproc.sz n)
    if sz = 0 then pure (-1) else setSize sz
  else setSize curproc.sz

def sys_sbrk (lay : Layout) (n : ℤ) : Call Curproc R ℤ := do
  let curproc ← myproc
  if (← growproc lay n) < 0 then pure (-1) else pure curproc.sz

/-! ## What it is for -/

/-- The user pages that are mapped are those below `PGROUNDUP(sz)`. -/
structure Covers (m : Frame → Page) (d : Frame) (sz : ℕ) : Prop where
  le : sz ≤ KERNBASE
  mapped : ∀ u < userPages, present (pte m d u) = true ↔ u < npages sz

/-- The same user pages are mapped, with the same contents. -/
def SamePages (m m' : Frame → Page) (d : Frame) : Prop :=
  ∀ u < userPages, mapping m' d u = mapping m d u ∧
    (present (pte m d u) = true → m' (PTE_ADDR (pte m d u)) = m (PTE_ADDR (pte m d u)))

/-- The size has changed by `n`, and the pages with it. -/
structure Resized (p : Curproc) (m' : Frame → Page) (p' : Curproc) (n : ℤ) : Prop where
  sz : (p'.sz : ℤ) = p.sz + n
  covers : Covers m' p'.pgdir p'.sz

/-- Nothing has happened. -/
structure Unchanged (m : Frame → Page) (p : Curproc) (m' : Frame → Page) (p' : Curproc) :
    Prop where
  sz : p'.sz = p.sz
  pages : SamePages m m' p.pgdir

/-- From memory `m` and process `p` to `m'` and `p'`, the call is exact or has no effect. -/
def Exact (m : Frame → Page) (p : Curproc) (n r : ℤ) (m' : Frame → Page) (p' : Curproc) : Prop :=
  r = 0 ∧ Resized p m' p' n ∨ r = -1 ∧ Unchanged m p m' p'

/-! ## What it does -/

variable {lay : Layout} {v v' : View Frame Page Curproc} {F : Multiset Frame} {n : ℤ}
variable {panics : View Frame Page Curproc → Prop} {enough : ℕ} {answers : R → Prop}

@[simp] theorem safe_myproc {Q : Curproc → View Frame Page Curproc → Prop} :
    (sequential lay.Arena answers enough panics).Safe (myproc : Call Curproc R Curproc) Q v ↔
      Q v.ghost v := Iff.rfl

@[simp] theorem safe_setproc {Q : Unit → View Frame Page Curproc → Prop} {f : Curproc → Curproc} :
    (sequential lay.Arena answers enough panics).Safe (setproc f : Call Curproc R Unit) Q v ↔
      Q () { v with ghost := f v.ghost } := Iff.rfl

theorem safe_setSize {Q : ℤ → View Frame Page Curproc → Prop} {sz : ℕ}
    (hkstack : v.ghost.kstack ≠ 0) (hpgdir : v.ghost.pgdir ≠ 0)
    (hQ : Q 0 { v with ghost := { v.ghost with sz := sz, cr3 := v.ghost.pgdir } }) :
    (sequential lay.Arena answers enough panics).Safe (setSize sz : Call Curproc R ℤ) Q v := by
  simp only [setSize, switchuvm, Comp.bind_eq, safe_bind, Comp.pure_eq, safe_myproc,
    safe_setproc, hkstack, hpgdir, if_false]
  exact hQ

theorem Holds.pgdir_ne {d : Frame} (hv : Holds lay v d F) : d ≠ 0 :=
  (hv.arena d hv.dir_mem).pos.ne'

theorem Covers.absent {m : Frame → Page} {d sz u : ℕ} (h : Covers m d sz) (hu : u < userPages)
    (hle : npages sz ≤ u) : present (pte m d u) = false := by
  have hnot : ¬ present (pte m d u) = true := by
    rw [h.mapped u hu]
    omega
  simpa using hnot

/-- Pages that have been added. -/
theorem Covers.grown {d sz sz' : ℕ} (h : Covers v.mem d sz) (hle : sz ≤ sz')
    (hsz' : sz' ≤ KERNBASE) (hgrown : Grown lay v v' d F (npages sz) (npages sz')) :
    Covers v'.mem d sz' where
  le := hsz'
  mapped u hu := by
    have hpages := hu.trans userPages_lt
    have hmono := npages_mono hle
    by_cases hin : npages sz ≤ u ∧ u < npages sz'
    · exact iff_of_true (hgrown.made u hin.1 hin.2) hin.2
    · rw [hgrown.others u hpages hin, h.mapped u hu]
      omega

/-- Pages that have been taken away. -/
theorem Covers.unmapped {d sz sz' : ℕ} (h : Covers v.mem d sz) (hle : sz' ≤ sz)
    (hunmapped : Unmapped lay v v' d F (npages sz') (npages sz)) : Covers v'.mem d sz' where
  le := hle.trans h.le
  mapped u hu := by
    have hmono := npages_mono hle
    rw [hunmapped.entries u (hu.trans userPages_lt)]
    by_cases hin : npages sz' ≤ u ∧ u < npages sz ∧ present (pte v.mem d u) = true
    · rw [if_pos hin, present_zero]
      simp [hin.1]
    · rw [if_neg hin, h.mapped u hu]
      rw [h.mapped u hu] at hin
      omega

theorem Undone.samePages {d : Frame} (h : Undone lay v v' d F) : SamePages v.mem v'.mem d :=
  fun u hu => ⟨h.mapping u (hu.trans userPages_lt), fun hpresent =>
    h.data _ (Multiset.mem_add.mpr (Or.inr (mem_users hu hpresent)))⟩

theorem Unmapped.samePages {d lo hi : ℕ} (hv : Holds lay v d F)
    (h : Unmapped lay v v' d F lo hi) (hle : hi ≤ lo) : SamePages v.mem v'.mem d := by
  have hentries : ∀ u < pages, pte v'.mem d u = pte v.mem d u := fun u hu => by
    rw [h.entries u hu, if_neg (by omega)]
  intro u hu
  have hsame := hentries u (hu.trans userPages_lt)
  refine ⟨by rw [mapping, mapping, hsame], fun hpresent => ?_⟩
  have hmem : PTE_ADDR (pte v.mem d u) ∈ v'.owned := by
    have hpresent' : present (pte v'.mem d u) = true := by rwa [hsame]
    have hmem := h.holds.user_mem hu hpresent'
    rwa [hsame] at hmem
  exact h.data _ hmem (user_notMem hv.space_nodup (mem_users hu hpresent)).2

theorem samePages_refl {m : Frame → Page} {d : Frame} : SamePages m m d :=
  fun _ _ => ⟨rfl, fun _ => rfl⟩

/-- What `growproc` does, for every `n`. -/
structure Outcome (m : Frame → Page) (p : Curproc) (n r : ℤ) (m' : Frame → Page) (p' : Curproc) :
    Prop where
  exact : 0 ≤ n ∨ 0 < p.sz + n ∨ p.sz = 0 → Exact m p n r m' p'
  all : n < 0 → 0 < p.sz → p.sz + n = 0 →
    r = -1 ∧ ∀ u < userPages, present (pte m' p.pgdir u) = false
  beyond : n < 0 → 0 < p.sz → p.sz + n < 0 → r = 0 ∧ p'.sz = p.sz

theorem addInt_of_nonneg {sz : ℕ} (hlo : 0 ≤ sz + n) (hhi : sz + n < 2 ^ 32) :
    (addInt sz n : ℤ) = sz + n := by
  rw [addInt, Int.emod_eq_of_lt hlo hhi, Int.toNat_of_nonneg hlo]

theorem addInt_of_neg {sz : ℕ} (hlo : -2 ^ 32 ≤ sz + n) (hhi : sz + n < 0) :
    (addInt sz n : ℤ) = sz + n + 2 ^ 32 := by
  have hmod : (sz + n) % 2 ^ 32 = sz + n + 2 ^ 32 := by omega
  rw [addInt, hmod, Int.toNat_of_nonneg (by omega)]

theorem safe_growproc (hv : Holds lay v v.ghost.pgdir F)
    (hcovers : Covers v.mem v.ghost.pgdir v.ghost.sz) (hkstack : v.ghost.kstack ≠ 0)
    (hn : -2 ^ 31 ≤ n ∧ n < 2 ^ 31) :
    (sequential lay.Arena answers enough panics).Safe (growproc lay n : Call Curproc R ℤ)
      (fun r v' => Outcome v.mem v.ghost n r v'.mem v'.ghost) v := by
  have hle := hcovers.le
  have hbase : KERNBASE = 2 ^ 31 := rfl
  rw [growproc, Comp.bind_eq, safe_bind, safe_myproc]
  by_cases hpos : n > 0
  · -- `allocuvm`; the sum does not wrap around
    have hsum : (addInt v.ghost.sz n : ℤ) = v.ghost.sz + n :=
      addInt_of_nonneg (by omega) (by omega)
    have hexact : ∀ {r m' p'}, Exact v.mem v.ghost n r m' p' →
        Outcome v.mem v.ghost n r m' p' := fun h =>
      ⟨fun _ => h, fun hneg => by omega, fun hneg => by omega⟩
    rw [if_pos hpos, Comp.bind_eq, safe_bind]
    refine safe_allocuvm rfl hv (fun hlt u hlo hu => ?_) (fun _ => ?_) (fun hless => ?_)
      (fun v' _ hv' => ?_) fun hlt hsz v' hv' _ => ?_
    · exact hcovers.absent (hu.trans_le (npages_le hlt.le)) hlo
    · exact hexact (Or.inr ⟨rfl, rfl, samePages_refl⟩)
    · omega
    · exact hexact (Or.inr ⟨rfl, congrArg Curproc.sz hv'.ghost, hv'.samePages⟩)
    · have hcovers' : Covers v'.mem v.ghost.pgdir (addInt v.ghost.sz n) :=
        hcovers.grown hsz hlt.le hv'
      have hghost : v'.ghost = v.ghost := hv'.ghost
      rw [if_neg (by omega)]
      refine safe_setSize (by rwa [hghost]) (by rw [hghost]; exact hv.pgdir_ne)
        (hexact (Or.inl ⟨rfl, hsum, ?_⟩))
      rw [hghost]
      exact hcovers'
  rw [if_neg hpos]
  by_cases hneg : n < 0
  · rw [if_pos hneg, Comp.bind_eq, safe_bind]
    refine safe_deallocuvm hle hv fun v' hv' => ?_
    have hghost : v'.ghost = v.ghost := hv'.ghost
    have hset : ∀ {sz} (hsz : sz ≠ 0), Outcome v.mem v.ghost n 0
        v'.mem { v.ghost with sz := sz, cr3 := v.ghost.pgdir } →
        (sequential lay.Arena answers enough panics).Safe
          (if sz = 0 then pure (-1) else setSize sz : Call Curproc R ℤ)
          (fun r v' => Outcome v.mem v.ghost n r v'.mem v'.ghost) v' :=
      fun hsz houtcome => by
        rw [if_neg hsz]
        refine safe_setSize (by rwa [hghost]) (by rw [hghost]; exact hv.pgdir_ne) ?_
        rwa [hghost]
    rcases lt_trichotomy ((v.ghost.sz : ℤ) + n) 0 with hlt | hzero | hgt
    · -- the sum wraps around, and nothing is freed
      have hsum := addInt_of_neg (by omega) hlt
      have hge : addInt v.ghost.sz n ≥ v.ghost.sz := by omega
      rw [if_pos hge]
      by_cases hzero : v.ghost.sz = 0
      · rw [if_pos hzero]
        refine ⟨fun _ => Or.inr ⟨rfl, congrArg Curproc.sz hghost, ?_⟩, by omega, by omega⟩
        exact hv'.samePages hv (npages_mono hge)
      · exact hset hzero ⟨by omega, by omega, fun _ _ _ => ⟨rfl, rfl⟩⟩
    · -- everything is freed, and the new size is the error value
      have hsum : addInt v.ghost.sz n = 0 := by
        have hsum : (addInt v.ghost.sz n : ℤ) = _ := addInt_of_nonneg (by omega) (by omega)
        omega
      have hcovers' : Covers v'.mem v.ghost.pgdir (addInt v.ghost.sz n) :=
        hcovers.unmapped (by omega) hv'
      rw [if_neg (show ¬ addInt v.ghost.sz n ≥ v.ghost.sz by omega), if_pos hsum]
      refine ⟨by omega, fun _ _ _ => ⟨rfl, fun u hu => ?_⟩, by omega⟩
      exact (hsum ▸ hcovers').absent hu (Nat.zero_le u)
    · have hsum : (addInt v.ghost.sz n : ℤ) = _ := addInt_of_nonneg (by omega) (by omega)
      have hcovers' : Covers v'.mem v.ghost.pgdir (addInt v.ghost.sz n) :=
        hcovers.unmapped (by omega) hv'
      rw [if_neg (show ¬ addInt v.ghost.sz n ≥ v.ghost.sz by omega)]
      exact hset (by omega) ⟨fun _ => Or.inl ⟨rfl, hsum, hcovers'⟩, by omega, by omega⟩
  · rw [if_neg hneg]
    have hzero : n = 0 := by omega
    refine safe_setSize hkstack hv.pgdir_ne
      ⟨fun _ => Or.inl ⟨rfl, ?_, hcovers⟩, by omega, by omega⟩
    rw [hzero, add_zero]

/-! ## `sbrk` is exact or has no effect -/

/-- The running process owns its address space, and has its kernel stack. -/
structure Running (lay : Layout) (w : World Frame Page Curproc R) : Prop where
  owns : w.Owns lay.Arena (space w.mem w.state.pgdir)
  covers : Covers w.mem w.state.pgdir w.state.sz
  kstack : w.state.kstack ≠ 0

/-- However the allocations end, `growproc(n)` is exact or has no effect. -/
def SbrkExact (lay : Layout) (w : World Frame Page Curproc R) (n : ℤ) : Prop :=
  match (growproc lay n).run w with
  | (.returned r, w') => Exact w.mem w.state n r w'.mem w'.state
  | (.panicked _, _) => False

theorem growproc_outcome {w : World Frame Page Curproc R} (h : Running lay w)
    (hn : -2 ^ 31 ≤ n ∧ n < 2 ^ 31) :
    ∃ r w', (growproc lay n).run w = (.returned r, w') ∧
      Outcome w.mem w.state n r w'.mem w'.state := by
  have hv : Holds lay (w.view (space w.mem w.state.pgdir)) w.state.pgdir 0 := by
    refine ⟨(zero_add _).symm, ?_, fun p hp => h.owns.arena p (Multiset.mem_add.mpr (Or.inr hp))⟩
    exact (Multiset.nodup_add.mp h.owns.nodup).2.1
  have hsafe : (sequential lay.Arena (fun _ => True) 0 fun _ => False).Safe
      (growproc lay n : Call Curproc R ℤ)
      _ _ := safe_growproc hv h.covers h.kstack hn
  have hends := hsafe.run h.owns (Or.inl rfl) fun _ => trivial
  generalize (growproc lay n).run w = result at hends
  obtain ⟨result, w'⟩ := result
  cases result with
  | returned r =>
      obtain ⟨owned', houtcome, -⟩ := hends
      exact ⟨r, w', rfl, houtcome⟩
  | panicked message =>
      obtain ⟨owned', hfalse⟩ := hends
      exact hfalse.elim

/-- `growproc(n)` is exact or has no effect, unless it takes away everything or more. -/
theorem growproc_exact_iff {w : World Frame Page Curproc R} (h : Running lay w)
    (hn : -2 ^ 31 ≤ n ∧ n < 2 ^ 31) :
    SbrkExact lay w n ↔ 0 ≤ n ∨ 0 < w.state.sz + n ∨ w.state.sz = 0 := by
  obtain ⟨r, w', hrun, houtcome⟩ := growproc_outcome h hn
  rw [SbrkExact, hrun]
  dsimp only
  refine ⟨fun hexact => ?_, houtcome.exact⟩
  by_contra hcond
  have hneg : n < 0 := by omega
  have hpos : 0 < w.state.sz := by omega
  rcases lt_or_eq_of_le (show (w.state.sz : ℤ) + n ≤ 0 by omega) with hlt | hzero
  · -- the size has wrapped around
    obtain ⟨hr, hsz⟩ := houtcome.beyond hneg hpos hlt
    rcases hexact with ⟨-, hresized⟩ | ⟨hr', -⟩
    · have hnew := hresized.sz
      rw [hsz] at hnew
      omega
    · omega
  · -- everything is gone
    obtain ⟨hr, hgone⟩ := houtcome.all hneg hpos hzero
    rcases hexact with ⟨hr', -⟩ | ⟨-, hsame⟩
    · omega
    · have huser : 0 < userPages := by
        unfold userPages
        decide
      have hfirst : present (pte w.mem w.state.pgdir 0) = true :=
        (h.covers.mapped 0 huser).mpr (lt_npages.mpr (by omega))
      have hmapping := (hsame.pages 0 huser).1
      rw [mapping_of_absent (hgone 0 huser), mapping, if_pos hfirst] at hmapping
      simp at hmapping

/-! ## A process of one page -/

/-- The process of `n` pages that `sampleMem` describes. -/
def sampleProc (n : ℕ) : Curproc where
  sz := n * PGSIZE
  pgdir := 2000
  kstack := 1999
  name := []
  eip := 0
  esp := 0
  cr3 := 2000
  begun := 0
  ended := 0
  locks := 0
  refs := 0

def sampleWorld (n : ℕ) (fill : ℕ → Page) : World Frame Page Curproc ℕ where
  free := []
  mem := sampleMem sampleLayout n fill
  state := sampleProc n
  answer := fun _ => 0
  refuse := fun _ => false
  failed := false

theorem sample_covers {m : ℕ} {fill : ℕ → Page} (hm : m ≤ 40000) :
    Covers (sampleMem sampleLayout m fill) 2000 (m * PGSIZE) where
  le := by
    unfold PGSIZE KERNBASE
    omega
  mapped u hu := by
    have hpages : npages (m * PGSIZE) = m := by
      unfold npages PGSIZE
      omega
    rw [pte_sample hu, hpages]
    split
    · rename_i hlt
      simp [hlt]
    · rename_i hlt
      simp [hlt]

theorem sample_running {m : ℕ} {fill : ℕ → Page} (hm : m ≤ 40000) :
    Running sampleLayout (sampleWorld m fill) where
  owns := by
    have hspace : ((sampleWorld m fill).free : Multiset Frame) +
        space (sampleWorld m fill).mem (sampleWorld m fill).state.pgdir =
        space (sampleMem sampleLayout m fill) 2000 := zero_add _
    refine ⟨?_, fun p hp => ?_⟩
    · rw [hspace]
      exact sample_nodup
    · rw [hspace] at hp
      exact (sample_arena hm hp).1
  covers := sample_covers hm
  kstack := by
    show (1999 : ℕ) ≠ 0
    decide

/-- `sbrk(-4096)` in a process of one page fails after it has freed the page. -/
theorem sbrk_all_lost :
    ¬ ∀ (lay : Layout) (w : World Frame Page Curproc ℕ) (n : ℤ), Running lay w →
      -2 ^ 31 ≤ n ∧ n < 2 ^ 31 → SbrkExact lay w n := by
  intro hall
  have hrunning : Running sampleLayout (sampleWorld 1 fun _ _ => 0) := sample_running (by decide)
  have hexact := hall sampleLayout _ (-4096) hrunning (by decide)
  obtain ⟨r, w', hrun, houtcome⟩ := growproc_outcome hrunning (n := -4096) (by decide)
  obtain ⟨hr, hgone⟩ := houtcome.all (by decide) (by decide) (by decide)
  rw [SbrkExact, hrun] at hexact
  rcases hexact with ⟨hr', -⟩ | ⟨-, hsame⟩
  · omega
  · have huser : 0 < userPages := by
      unfold userPages
      decide
    have hmapping := (hsame.pages 0 huser).1
    have hfirst := (hrunning.covers.mapped 0 huser).mpr (by decide)
    rw [mapping_of_absent (hgone 0 huser), mapping, if_pos hfirst] at hmapping
    simp at hmapping

/-- The process of one page may grow by a byte. -/
theorem growproc_exact_one : SbrkExact sampleLayout (sampleWorld 1 fun _ _ => 0) 1 :=
  (growproc_exact_iff (sample_running (by decide)) (by decide)).mpr (Or.inl (by decide))

end Xv6.Vm
