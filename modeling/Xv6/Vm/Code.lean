import Xv6.Lib.Allocation
import Mathlib.Data.Nat.Bitwise

/-!
# `kalloc.c` and `vm.c`

Pages of physical memory are given by their number, the physical address divided by
`PGSIZE`, and what `P2V` and `V2P` do to addresses does not occur.  A page is its
words.  Page tables are read and written word by word, as the code does it, so that
a page directory is just a page.

Addresses are natural numbers; where the code may wrap around, `uint` says so.
-/

namespace Xv6.Vm

open Allocation

/-! ## `memlayout.h`, `mmu.h` and `kernel.ld` -/

/-- The number of a page of physical memory. -/
abbrev Frame := ℕ

/-- The words of a page. -/
abbrev Page := ℕ → ℕ

def PGSIZE : ℕ := 4096
@[irreducible] def NPDENTRIES : ℕ := 1024
def KERNBASE : ℕ := 0x80000000
def EXTMEM : ℕ := 0x100000
def KERNLINK : ℕ := KERNBASE + EXTMEM
def PHYSTOP : ℕ := 0xE000000
def DEVSPACE : ℕ := 0xFE000000

def PTE_P : ℕ := 1
def PTE_W : ℕ := 2
def PTE_U : ℕ := 4

/-- The `uint` with the low bits of `n`. -/
def uint (n : ℕ) : ℕ := n % 2 ^ 32

/-- Of a `uint`, so that the mask of the macro does nothing. -/
def PDX (va : ℕ) : ℕ := va / 2 ^ 22

def PTX (va : ℕ) : ℕ := va / 2 ^ 12 % 2 ^ 10

def PGROUNDUP (sz : ℕ) : ℕ := (sz + PGSIZE - 1) / PGSIZE * PGSIZE

def PGROUNDDOWN (a : ℕ) : ℕ := a / PGSIZE * PGSIZE

/-- The page that an entry of a page table or page directory names. -/
def PTE_ADDR (pte : ℕ) : Frame := pte / PGSIZE

def PTE_FLAGS (pte : ℕ) : ℕ := pte % PGSIZE

/-- `pte & PTE_P` -/
def present (pte : ℕ) : Bool := pte.testBit 0

/-- `pte & PTE_U` -/
def user (pte : ℕ) : Bool := pte.testBit 2

/-- The numbers of the pages where the linker has put `end` (the first page that is not
the kernel's) and `data`.  There is room for both below `PHYSTOP`. -/
structure Layout where
  endPage : ℕ
  dataPage : ℕ
  text : EXTMEM / PGSIZE < dataPage
  data_le : dataPage ≤ endPage
  end_lt : endPage < PHYSTOP / PGSIZE

/-- The pages that `kinit1` and `kinit2` give to the allocator. -/
def Layout.Arena (lay : Layout) (v : Frame) : Prop :=
  lay.endPage ≤ v ∧ v < PHYSTOP / PGSIZE

instance (lay : Layout) (v : Frame) : Decidable (lay.Arena v) :=
  inferInstanceAs (Decidable (_ ∧ _))

variable {σ R : Type}

/-- A call of a function of the kernel. -/
abbrev Call (σ R α : Type) := Comp Frame Page σ R α

def load (v : Frame) (i : ℕ) : Call σ R ℕ := .load v fun page => .ret (page i)

def store (v : Frame) (i word : ℕ) : Call σ R Unit :=
  .modify v (fun page => Function.update page i word) (.ret ())

/-- `memset(v, byte, PGSIZE)`, with the word of four such bytes -/
def memset (v : Frame) (word : ℕ) : Call σ R Unit := .modify v (fun _ _ => word) (.ret ())

/-- `memmove(dst, src, PGSIZE)` -/
def memmove (dst src : Frame) : Call σ R Unit :=
  .load src fun page => .modify dst (fun _ => page) (.ret ())

/-! ## `kalloc.c` -/

def kalloc : Call σ R (Option Frame) := .alloc .ret

/-- The link to the next free page is the list of the allocator. -/
def kfree (lay : Layout) (v : Frame) : Call σ R Unit :=
  if lay.Arena v then do
    memset v 0x01010101
    .free v (.ret ())
  else .panic "kfree"

/-! ## `vm.c`: page tables -/

/-- The page table and the index of the entry for `va`, as `pte_t *`. -/
def walkpgdir (pgdir : Frame) (va : ℕ) (alloc : Bool) : Call σ R (Option (Frame × ℕ)) := do
  let pde ← load pgdir (PDX va)
  if present pde then pure (some (PTE_ADDR pde, PTX va))
  else if alloc then
    match ← kalloc with
    | none => pure none
    | some pgtab =>
        memset pgtab 0
        store pgdir (PDX va) (pgtab * PGSIZE ||| PTE_P ||| PTE_W ||| PTE_U)
        pure (some (pgtab, PTX va))
  else pure none

/-- `n` rounds of the loop of `mappages`; -1 is `false`. -/
def mapFrom (pgdir : Frame) (perm : ℕ) : ℕ → ℕ → ℕ → Call σ R Bool
  | 0, _, _ => pure true
  | n + 1, a, pa => do
      match ← walkpgdir pgdir a true with
      | none => pure false
      | some (pgtab, i) =>
          if present (← load pgtab i) then .panic "remap"
          else
            store pgtab i (pa ||| perm ||| PTE_P)
            mapFrom pgdir perm n (uint (a + PGSIZE)) (uint (pa + PGSIZE))

/-- The loop goes from `a` to `last`. -/
def mappages (pgdir : Frame) (va size pa perm : ℕ) : Call σ R Bool :=
  let a := PGROUNDDOWN va
  let last := PGROUNDDOWN (uint (va + size + (2 ^ 32 - 1)))
  mapFrom pgdir perm (uint (last + 2 ^ 32 - a) / PGSIZE + 1) a pa

/-- The loop of `deallocuvm` from address `a` on. -/
def deallocFrom (lay : Layout) (pgdir : Frame) (oldsz a : ℕ) : Call σ R Unit :=
  if a < oldsz then do
    match ← walkpgdir pgdir a false with
    | none => deallocFrom lay pgdir oldsz ((PDX a + 1) * 2 ^ 22 - PGSIZE + PGSIZE)
    | some (pgtab, i) =>
        let pte ← load pgtab i
        if present pte then
          if PTE_ADDR pte = 0 then .panic "kfree"
          else
            kfree lay (PTE_ADDR pte)
            store pgtab i 0
            deallocFrom lay pgdir oldsz (a + PGSIZE)
        else deallocFrom lay pgdir oldsz (a + PGSIZE)
  else pure ()
termination_by oldsz - a
decreasing_by
  all_goals simp only [PDX, PGSIZE]; omega

def deallocuvm (lay : Layout) (pgdir : Frame) (oldsz newsz : ℕ) : Call σ R ℕ :=
  if newsz ≥ oldsz then pure oldsz
  else do
    deallocFrom lay pgdir oldsz (PGROUNDUP newsz)
    pure newsz

/-- The loop of `freevm` over the entries of the page directory. -/
def freeTables (lay : Layout) (pgdir : Frame) : List ℕ → Call σ R Unit
  | [] => pure ()
  | i :: rest => do
      let pde ← load pgdir i
      if present pde then
        kfree lay (PTE_ADDR pde)
        freeTables lay pgdir rest
      else freeTables lay pgdir rest

def freevm (lay : Layout) (pgdir : Frame) : Call σ R Unit := do
  let _ ← deallocuvm lay pgdir KERNBASE 0
  freeTables lay pgdir (List.range NPDENTRIES)
  kfree lay pgdir

/-- The loop of `allocuvm` from address `a` on; -1 is `false`. -/
def allocFrom (lay : Layout) (pgdir : Frame) (oldsz newsz a : ℕ) : Call σ R ℕ :=
  if a < newsz then do
    match ← kalloc with
    | none =>
        let _ ← deallocuvm lay pgdir newsz oldsz
        pure 0
    | some mem =>
        memset mem 0
        if ← mappages pgdir a PGSIZE (mem * PGSIZE) (PTE_W ||| PTE_U) then
          allocFrom lay pgdir oldsz newsz (a + PGSIZE)
        else
          let _ ← deallocuvm lay pgdir newsz oldsz
          kfree lay mem
          pure 0
  else pure newsz
termination_by newsz - a
decreasing_by
  simp only [PGSIZE]; omega

def allocuvm (lay : Layout) (pgdir : Frame) (oldsz newsz : ℕ) : Call σ R ℕ :=
  if newsz ≥ KERNBASE then pure 0
  else if newsz < oldsz then pure oldsz
  else allocFrom lay pgdir oldsz newsz (PGROUNDUP oldsz)

/-! ## `vm.c`: new address spaces -/

structure Kmap where
  virt : ℕ
  physStart : ℕ
  physEnd : ℕ
  perm : ℕ

def kmap (lay : Layout) : List Kmap :=
  [⟨KERNBASE, 0, EXTMEM, PTE_W⟩,
    ⟨KERNLINK, EXTMEM, lay.dataPage * PGSIZE, 0⟩,
    ⟨KERNBASE + lay.dataPage * PGSIZE, lay.dataPage * PGSIZE, PHYSTOP, PTE_W⟩,
    ⟨DEVSPACE, DEVSPACE, 0, PTE_W⟩]

/-- The loop of `setupkvm`. -/
def mapKernel (lay : Layout) (pgdir : Frame) : List Kmap → Call σ R (Option Frame)
  | [] => pure (some pgdir)
  | k :: rest => do
      if ← mappages pgdir k.virt (uint (k.physEnd + 2 ^ 32 - k.physStart)) k.physStart k.perm then
        mapKernel lay pgdir rest
      else
        freevm lay pgdir
        pure none

def setupkvm (lay : Layout) : Call σ R (Option Frame) := do
  match ← kalloc with
  | none => pure none
  | some pgdir =>
      memset pgdir 0
      if KERNBASE + PHYSTOP > DEVSPACE then .panic "PHYSTOP too high"
      else mapKernel lay pgdir (kmap lay)

/-- The loop of `copyuvm` from address `i` on, into the page directory `d`. -/
def copyFrom (lay : Layout) (pgdir sz d i : ℕ) : Call σ R (Option Frame) :=
  if i < sz then do
    match ← walkpgdir pgdir i false with
    | none => .panic "copyuvm: pte should exist"
    | some (pgtab, j) =>
        let pte ← load pgtab j
        if present pte then
          match ← kalloc with
          | none =>
              freevm lay d
              pure none
          | some mem =>
              memmove mem (PTE_ADDR pte)
              if ← mappages d i PGSIZE (mem * PGSIZE) (PTE_FLAGS pte) then
                copyFrom lay pgdir sz d (i + PGSIZE)
              else
                kfree lay mem
                freevm lay d
                pure none
        else .panic "copyuvm: page not present"
  else pure (some d)
termination_by sz - i
decreasing_by
  simp only [PGSIZE]; omega

def copyuvm (lay : Layout) (pgdir sz : ℕ) : Call σ R (Option Frame) := do
  match ← setupkvm lay with
  | none => pure none
  | some d => copyFrom lay pgdir sz d 0

end Xv6.Vm
