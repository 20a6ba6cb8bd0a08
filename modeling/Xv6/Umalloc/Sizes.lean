import Xv6.Umalloc.Runs
import Xv6.Vm.Growproc

/-!
# What `malloc` asks for

`malloc` counts in units, `sbrk` takes a number of bytes as an `int`, and `growproc` adds
it to a size that is a `uint`.  Up to `2 ^ 31 - 16` bytes none of these conversions
changes the request.  Above, the units wrap around, or what `sbrk` gets is negative or 0
(`malloc_sizes`).
-/

namespace Xv6.Umalloc

open Fuel Tiling
open Vm (uint KERNBASE)

variable {base nbytes : ℕ}

/-! ## `sbrk` of the kernel -/

/-- The `int` that a `uint` becomes. -/
def toInt (n : ℕ) : ℤ := if n < 2 ^ 31 then n else n - 2 ^ 32

/-- The size of the process, and the memory that `sbrk` has given to `malloc`. -/
structure Brk where
  sz : ℕ
  segments : List (ℕ × ℕ)

/-- For a positive number of bytes, `sbrk` fails without effect, or the process grows by as many
bytes and gets their address.  What it does otherwise does not matter. -/
def KernelSbrk (sbrk : Brk → ℕ → Option ℕ × Brk) : Prop :=
  ∀ b n, 0 < toInt n → sbrk b n = (none, b) ∨
    sbrk b n = (some b.sz, ⟨b.sz + n, b.segments ++ [(b.sz, n)]⟩) ∧ b.sz + n ≤ KERNBASE

/-- That is what `growproc` does. -/
theorem growproc_kernelSbrk {R : Type} {lay : Vm.Layout}
    {w : Allocation.World Vm.Frame Vm.Page Vm.Curproc R} (h : Vm.Running lay w) {n : ℤ}
    (hpos : 0 < n) (hlt : n < 2 ^ 31) :
    ∃ r w', (Vm.growproc lay n).run w = (.returned r, w') ∧
      (r = -1 ∧ w'.state.sz = w.state.sz ∨
        r = 0 ∧ (w'.state.sz : ℤ) = w.state.sz + n ∧ w'.state.sz ≤ KERNBASE) := by
  obtain ⟨r, w', hrun, houtcome⟩ := Vm.growproc_outcome h ⟨by omega, hlt⟩
  refine ⟨r, w', hrun, ?_⟩
  rcases houtcome.exact (Or.inl hpos.le) with ⟨hr, hresized⟩ | ⟨hr, hunchanged⟩
  · exact Or.inr ⟨hr, hresized.sz, hresized.covers.le⟩
  · exact Or.inl ⟨hr, hunchanged.sz⟩

/-! ## Programs -/

structure Process where
  heap : Heap
  live : Finset ℕ
  brk : Brk

/-- The requests for which nothing wraps around. -/
def Fitting (nbytes : ℕ) : Prop := nbytes ≤ 2 ^ 31 - 16

/-- A program calls `malloc` with fitting sizes and `free`, and may also call `sbrk` itself. -/
inductive ProcessStep (base : ℕ) : Process → Process → Prop
  | malloc {s : Process} {nbytes : ℕ} {sbrk : Brk → ℕ → Option ℕ × Brk} {r : Option ℕ} {h : Heap}
      {brk : Brk} (hfit : Fitting nbytes) (hkernel : KernelSbrk sbrk)
      (hreturns : Returns (fun fuel => malloc sbrk base fuel nbytes s.heap s.brk) (r, h, brk)) :
      ProcessStep base s ⟨h, handedOut r s.live, brk⟩
  | free {s : Process} {p : ℕ} {h : Heap} (hlive : p ∈ s.live)
      (hreturns : Returns (fun fuel => free fuel s.heap (p + HEADER)) h) :
      ProcessStep base s ⟨h, s.live.erase p, s.brk⟩
  | sbrk {s : Process} {sz : ℕ} (hle : s.brk.sz ≤ sz) (hsz : sz ≤ KERNBASE) :
      ProcessStep base s ⟨s.heap, s.live, ⟨sz, s.brk.segments⟩⟩

/-- A process that has not called `malloc`.  The header `base` is part of it. -/
structure Loaded (base : ℕ) (s : Process) : Prop where
  freep : s.heap.freep = none
  live : s.live = ∅
  segments : s.brk.segments = []
  base : base + HEADER ≤ s.brk.sz
  size : s.brk.sz ≤ KERNBASE

/-- The memory of the heap is part of the process. -/
structure Within (base : ℕ) (s : Process) : Prop where
  ready : ∃ l, Ready base s.heap l s.live (memoryOf s.brk.segments)
  below : ∀ segment ∈ s.brk.segments, segment.1 + segment.2 ≤ s.brk.sz
  base : base + HEADER ≤ s.brk.sz
  size : s.brk.sz ≤ KERNBASE

theorem Loaded.within {s : Process} (h : Loaded base s) : Within base s := by
  refine ⟨⟨[], Or.inr ⟨h.freep, rfl, h.live, ?_⟩⟩, fun segment hmem => ?_, h.base, h.size⟩
  · rw [h.segments]
    ext x
    simp [memoryOf]
  · rw [h.segments] at hmem
    simp at hmem

/-! ## Requests that fit -/

theorem Fitting.small (h : Fitting nbytes) : Small nbytes := by
  unfold Fitting at h
  unfold Small HEADER
  omega

/-- What is asked of `sbrk`, as an `int`. -/
theorem Fitting.toInt (h : Fitting nbytes) :
    toInt (uint (moreUnits (units nbytes) * HEADER)) = HEADER * moreUnits (units nbytes) := by
  obtain ⟨hunits, harg⟩ := h.small.units
  have hlt : HEADER * moreUnits (units nbytes) < 2 ^ 31 := by
    unfold Fitting at h
    rw [hunits]
    unfold moreUnits HEADER
    split <;> omega
  rw [harg, Umalloc.toInt, if_pos hlt]
  push_cast
  rfl

/-- The block that `malloc` returns is memory of the heap and is large enough. -/
def Enough (nbytes : ℕ) (brk : Brk) (ap : ℕ) : Prop :=
  Set.Ico ap (ap + nbytes) ⊆ memoryOf brk.segments

theorem Within.malloc {s : Process} (hs : Within base s) (hfit : Fitting nbytes)
    {sbrk : Brk → ℕ → Option ℕ × Brk} (hkernel : KernelSbrk sbrk) :
    ∃ r h brk, Returns (fun fuel => malloc sbrk base fuel nbytes s.heap s.brk) (r, h, brk) ∧
      Within base ⟨h, handedOut r s.live, brk⟩ ∧ ∀ ap, r = some ap → Enough nbytes brk ap := by
  obtain ⟨l, hready⟩ := hs.ready
  have harg := hfit.small.units.2
  have hpos : 0 < toInt (uint (moreUnits (units nbytes) * HEADER)) := by
    have hmore := moreUnits_pos (units nbytes)
    rw [hfit.toInt]
    unfold HEADER
    omega
  have hanswer := hkernel s.brk _ hpos
  -- a block that has been handed out
  have hserve : ∀ {q : ℕ} {h : Heap} (brk : Brk),
      Served base s.heap s.live (units nbytes) h (memoryOf brk.segments) q →
      (∀ segment ∈ brk.segments, segment.1 + segment.2 ≤ brk.sz) → s.brk.sz ≤ brk.sz →
      brk.sz ≤ KERNBASE → Within base ⟨h, handedOut (some (q + HEADER)) s.live, brk⟩ ∧
        ∀ ap, some (q + HEADER) = some ap → Enough nbytes brk ap := by
    intro q h brk hserved hbelow hle hsz
    obtain ⟨l', hb⟩ := hserved.blocks
    refine ⟨⟨⟨l', Or.inl ?_⟩, hbelow, hs.base.trans hle, hsz⟩, fun ap hap => ?_⟩
    · show Blocks base h l' (insert (q + HEADER - HEADER) s.live) _
      rwa [Nat.add_sub_cancel]
    · have hgood : Good ⟨s.heap, s.live, s.brk.segments⟩ nbytes h brk.segments (q + HEADER) :=
        Served.good hserved hfit.small
      rw [← Option.some.inj hap]
      rintro x ⟨hlo, hhi⟩
      refine hgood.memory ⟨?_, hhi.trans_le hgood.room⟩
      rw [Nat.add_sub_cancel]
      exact (Nat.le_add_right q HEADER).trans hlo
  have hfresh : ∀ p brk, sbrk s.brk (uint (moreUnits (units nbytes) * HEADER)) = (some p, brk) →
      Fresh base (memoryOf s.brk.segments) p := fun p brk hsbrk => by
    rcases hanswer with hnone | ⟨hsome, -⟩
    · rw [hnone] at hsbrk
      simp at hsbrk
    · rw [hsome] at hsbrk
      obtain ⟨rfl, -⟩ := by simpa using hsbrk
      exact ⟨fun x ⟨segment, hmem, hx⟩ => hx.2.trans_le (hs.below segment hmem), hs.base⟩
  rcases hready.malloc_returns hfresh with ⟨q, h', hreturns, hserved⟩ |
    ⟨h', brk, hreturns, hsbrk, hb⟩ | ⟨q, h', p, brk, hreturns, hsbrk, hserved⟩
  · obtain ⟨hwithin, henough⟩ := hserve s.brk hserved hs.below le_rfl hs.size
    exact ⟨_, h', s.brk, hreturns, hwithin, henough⟩
  · rcases hanswer with hnone | ⟨hsome, -⟩
    · obtain rfl : s.brk = brk := by
        rw [hnone] at hsbrk
        simpa using hsbrk
      exact ⟨none, h', s.brk, hreturns, ⟨⟨l, Or.inl hb⟩, hs.below, hs.base, hs.size⟩, by simp⟩
    · rw [hsome] at hsbrk
      simp at hsbrk
  · rcases hanswer with hnone | ⟨hsome, hle⟩
    · rw [hnone] at hsbrk
      simp at hsbrk
    · rw [hsome, harg] at hsbrk
      rw [harg] at hle
      obtain ⟨rfl, rfl⟩ := by simpa using hsbrk
      rw [← memoryOf_append] at hserved
      have hbelow : ∀ segment ∈
          s.brk.segments ++ [(s.brk.sz, HEADER * moreUnits (units nbytes))],
          segment.1 + segment.2 ≤ s.brk.sz + HEADER * moreUnits (units nbytes) := by
        intro segment hmem
        rcases List.mem_append.mp hmem with hmem | hmem
        · exact (hs.below segment hmem).trans (Nat.le_add_right _ _)
        · rw [List.mem_singleton.mp hmem]
      have hgrown : s.brk.sz ≤ s.brk.sz + HEADER * moreUnits (units nbytes) :=
        Nat.le_add_right _ _
      obtain ⟨hwithin, henough⟩ := hserve ⟨_, _⟩ hserved hbelow hgrown hle
      exact ⟨_, h', _, hreturns, hwithin, henough⟩

theorem ProcessStep.within {s t : Process} (hstep : ProcessStep base s t) (hs : Within base s) :
    Within base t := by
  cases hstep with
  | malloc hfit hkernel hreturns =>
      obtain ⟨r, h, brk, hreturns', hwithin, -⟩ := hs.malloc hfit hkernel
      obtain ⟨rfl, rfl, rfl⟩ := by simpa using hreturns.unique hreturns'
      exact hwithin
  | free hlive hreturns =>
      have hinv : Invariant base ⟨s.heap, s.live, s.brk.segments⟩ := hs.ready
      obtain ⟨h, hreturns', hinv', -⟩ := hinv.free hlive
      obtain rfl := hreturns.unique hreturns'
      exact ⟨hinv', hs.below, hs.base, hs.size⟩
  | sbrk hle hsz =>
      exact ⟨hs.ready, fun segment hmem => (hs.below segment hmem).trans hle, hs.base.trans hle,
        hsz⟩

/-! ## All requests -/

/-- What `malloc` first asks for is what it asks of an `sbrk` that refuses. -/
def refuse (_ : Option ℕ) (n : ℕ) : Option ℕ × Option ℕ := (none, some n)

def Asks (base : ℕ) (s : Process) (nbytes n : ℕ) : Prop :=
  ∃ h, Returns (fun fuel => malloc refuse base fuel nbytes s.heap none) (none, h, some n)

/-- Neither the units nor what `sbrk` gets wraps around, and a block that is returned is large
enough. -/
structure NeverUnder (base : ℕ) (s : Process) (nbytes : ℕ) (sbrk : Brk → ℕ → Option ℕ × Brk) :
    Prop where
  units : units nbytes = (nbytes + HEADER - 1) / HEADER + 1
  request : ∀ n, Asks base s nbytes n → toInt n = HEADER * moreUnits (Umalloc.units nbytes)
  result : ∀ r h brk, Returns (fun fuel => malloc sbrk base fuel nbytes s.heap s.brk) (r, h, brk) →
    ∀ ap, r = some ap → Enough nbytes brk ap

/-- `malloc` asks for memory where no free block is large enough. -/
theorem Within.asks {s : Process} (hs : Within base s)
    (hlarge : 2 ^ 31 ≤ HEADER * units nbytes) :
    Asks base s nbytes (uint (moreUnits (units nbytes) * HEADER)) := by
  obtain ⟨l, hready⟩ := hs.ready
  have hfresh : ∀ p s', refuse none (uint (moreUnits (units nbytes) * HEADER)) = (some p, s') →
      Fresh base (memoryOf s.brk.segments) p := fun p s' h => by
    simp [refuse] at h
  rcases hready.malloc_returns hfresh with ⟨q, h', -, hserved⟩ | ⟨h', s', hreturns, hsbrk, -⟩ |
    ⟨q, h', p, s', -, hsbrk, -⟩
  · -- a block of so many units would reach beyond the process
    obtain ⟨l', hb⟩ := hserved.blocks
    have hq : q ∈ l'.toFinset ∪ insert q s.live := by simp
    have hbase := hb.base_lt (Or.inr (Finset.mem_insert_self q s.live))
    have hpos := hb.tiles.pos q hq
    have hlast : h'.next q - 1 ∈ memoryOf s.brk.segments :=
      (hb.tiles.cover _).mpr ⟨q, hq, by omega, by omega⟩
    obtain ⟨segment, hmem, -, hlt⟩ := hlast
    have hbelow := hs.below segment hmem
    have hsz := hs.size
    rw [Heap.next, hserved.size] at hlt hpos
    unfold KERNBASE at hsz
    omega
  · obtain ⟨-, rfl⟩ := by simpa [refuse] using hsbrk
    exact ⟨h', hreturns⟩
  · simp [refuse] at hsbrk

theorem Within.never_under_iff {s : Process} (hs : Within base s)
    {sbrk : Brk → ℕ → Option ℕ × Brk} (hkernel : KernelSbrk sbrk) (hn : nbytes < 2 ^ 32) :
    NeverUnder base s nbytes sbrk ↔ Fitting nbytes := by
  constructor
  · intro h
    by_contra hfit
    unfold Fitting at hfit
    have hunits := h.units
    -- the units have not wrapped around
    have hsum : nbytes + HEADER - 1 < 2 ^ 32 := by
      by_contra hwrap
      unfold units uint HEADER at hunits
      unfold HEADER at hwrap
      omega
    have hlarge : 2 ^ 31 ≤ HEADER * units nbytes := by
      rw [hunits]
      unfold HEADER
      omega
    have hrequest := h.request _ (hs.asks hlarge)
    have hmore : moreUnits (units nbytes) = units nbytes := by
      unfold moreUnits
      unfold HEADER at hlarge
      rw [if_neg (by omega)]
    rw [hmore] at hrequest
    unfold toInt uint HEADER at hrequest
    unfold HEADER at hlarge
    split at hrequest <;> omega
  · intro hfit
    refine ⟨hfit.small.units.1, fun n hn => ?_, fun r h brk hreturns ap hap => ?_⟩
    · obtain ⟨h, hasks⟩ := hn
      obtain ⟨l, hready⟩ := hs.ready
      have hfresh : ∀ p s', refuse none (uint (moreUnits (units nbytes) * HEADER)) =
          (some p, s') → Fresh base (memoryOf s.brk.segments) p := fun p s' h => by
        simp [refuse] at h
      rcases hready.malloc_returns hfresh with ⟨q, h', hreturns, -⟩ |
        ⟨h', s', hreturns, hsbrk, -⟩ | ⟨q, h', p, s', -, hsbrk, -⟩
      · exact absurd (hreturns.unique hasks) (by simp)
      · obtain ⟨-, rfl⟩ := by simpa [refuse] using hsbrk
        obtain ⟨-, rfl⟩ := by simpa using hreturns.unique hasks
        exact hfit.toInt
      · simp [refuse] at hsbrk
    · obtain ⟨r', h', brk', hreturns', -, henough⟩ := hs.malloc hfit hkernel
      obtain ⟨rfl, rfl, rfl⟩ := by simpa using hreturns.unique hreturns'
      exact henough ap hap

/-- In a program whose requests fit, `malloc` gives or asks for less than it should exactly where
the next request does not fit. -/
theorem malloc_sizes {s₀ s : Process} (hstart : Loaded base s₀)
    (run : Relation.ReflTransGen (ProcessStep base) s₀ s) {sbrk : Brk → ℕ → Option ℕ × Brk}
    (hkernel : KernelSbrk sbrk) (hn : nbytes < 2 ^ 32) :
    NeverUnder base s nbytes sbrk ↔ nbytes ≤ 2 ^ 31 - 16 := by
  have hs : Within base s := by
    induction run with
    | refl => exact hstart.within
    | tail _ hstep ih => exact hstep.within ih
  exact hs.never_under_iff hkernel hn

/-! ## A request that does not fit -/

/-- A process of one page. -/
def smallProcess : Process := ⟨⟨fun _ => ⟨0, 0⟩, none⟩, ∅, ⟨4096, []⟩⟩

/-- An `sbrk` that succeeds while the process is small. -/
def smallSbrk (b : Brk) (n : ℕ) : Option ℕ × Brk :=
  if b.sz + n ≤ KERNBASE then (some b.sz, ⟨b.sz + n, b.segments ++ [(b.sz, n)]⟩) else (none, b)

theorem smallSbrk_kernel : KernelSbrk smallSbrk := by
  intro b n _
  unfold smallSbrk
  split
  · rename_i hle
    exact Or.inr ⟨rfl, hle⟩
  · exact Or.inl rfl

theorem smallProcess_loaded : Loaded 64 smallProcess := by
  constructor <;> decide

/-- `malloc(0xffffffff)` counts one unit, and returns a block without a byte. -/
theorem malloc_no_room : ∃ ap h brk,
    Returns (fun fuel => malloc smallSbrk 64 fuel (2 ^ 32 - 1) smallProcess.heap smallProcess.brk)
      (some ap, h, brk) ∧ h.next (ap - HEADER) = ap ∧ brk.segments = [(4096, 32768)] := by
  obtain ⟨l, hready⟩ := smallProcess_loaded.within.ready
  have hunits : units (2 ^ 32 - 1) = 1 := by decide
  have harg : uint (moreUnits 1 * HEADER) = 32768 := by decide
  have hsbrk : smallSbrk smallProcess.brk 32768 = (some 4096, ⟨36864, [(4096, 32768)]⟩) := by
    rw [smallSbrk, if_pos (by decide)]
    rfl
  have hfresh : ∀ p brk, smallSbrk smallProcess.brk
      (uint (moreUnits (units (2 ^ 32 - 1)) * HEADER)) = (some p, brk) →
      Fresh 64 (memoryOf smallProcess.brk.segments) p := fun p brk h => by
    rw [hunits, harg, hsbrk] at h
    obtain ⟨rfl, -⟩ := by simpa using h
    refine ⟨fun x hx => ?_, by decide⟩
    obtain ⟨segment, hmem, -⟩ := hx
    simp [smallProcess] at hmem
  rcases hready.malloc_returns hfresh with ⟨q, h', -, hserved⟩ | ⟨h', brk, -, hnone, -⟩ |
    ⟨q, h', p, brk, hreturns, hsome, hserved⟩
  · obtain ⟨l', hb⟩ := hserved.blocks
    obtain ⟨segment, hmem, -⟩ := hb.tiles.start_mem (by simp : q ∈ _)
    simp [smallProcess] at hmem
  · rw [hunits, harg, hsbrk] at hnone
    simp at hnone
  · rw [hunits, harg, hsbrk] at hsome
    obtain ⟨-, rfl⟩ := by simpa using hsome
    refine ⟨q + HEADER, h', _, hreturns, ?_, rfl⟩
    rw [Nat.add_sub_cancel, Heap.next, hserved.size, hunits, Nat.mul_one]

theorem malloc_wraps : ¬ ∀ (base : ℕ) (s₀ s : Process) (sbrk : Brk → ℕ → Option ℕ × Brk)
    (nbytes : ℕ), Loaded base s₀ → Relation.ReflTransGen (ProcessStep base) s₀ s →
      KernelSbrk sbrk → nbytes < 2 ^ 32 → NeverUnder base s nbytes sbrk := by
  intro hall
  obtain ⟨ap, h, brk, hreturns, -, hsegments⟩ := malloc_no_room
  have hnever := hall 64 smallProcess smallProcess smallSbrk (2 ^ 32 - 1) smallProcess_loaded
    Relation.ReflTransGen.refl smallSbrk_kernel (by decide)
  have henough := hnever.result _ _ _ hreturns ap rfl
  have hbyte : ap + 2 ^ 31 ∈ memoryOf brk.segments := henough ⟨by omega, by omega⟩
  obtain ⟨segment, hmem, -, hlt⟩ := hbyte
  rw [hsegments] at hmem
  rw [List.mem_singleton.mp hmem] at hlt
  have hlt : ap + 2 ^ 31 < 4096 + 32768 := hlt
  omega

theorem malloc_sizes_100 : NeverUnder 64 smallProcess 100 smallSbrk :=
  (malloc_sizes smallProcess_loaded Relation.ReflTransGen.refl smallSbrk_kernel
    (by decide)).mpr (by decide)

end Xv6.Umalloc
