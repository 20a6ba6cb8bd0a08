import Xv6.Vm.Image

/-!
# A successful `exec`

Where `exec` returns 0, the new address space holds the segments of the file and zeros,
the page below the stack page is not the user's, and the stack page holds the arguments.
Where it fails, it is clean.  Both need that what is behind a null pointer is harmless,
because `copyout` may otherwise write to any page.

The stack pointer only goes down.  What is pushed ends less than a word below what was
pushed before, so it cannot jump over the page below the stack page, where `copyout`
fails: `stack_room`.
-/

namespace Xv6.Vm

open Allocation Logic

variable {lay : Layout} {v v' : View Frame Page Curproc} {d sz n off : ℕ} {F : Multiset Frame}
variable {m₀ : Frame → Page} {panics : View Frame Page Curproc → Prop} {enough : ℕ}
variable {answers : Reply → Prop} {f g : ℕ → ℕ} {opened : ℕ → Bool} {file : List UInt8}

/-! ## The segments -/

/-- The program header at offset `off` of the file. -/
def header (file : List UInt8) (off : ℕ) : ℕ → ℕ := fun k => fileByte file (off + k)

/-- The bytes after a program header has been dealt with. -/
def segment (file : List UInt8) (ph f : ℕ → ℕ) : ℕ → ℕ :=
  if phType ph = ELF_PROG_LOAD then
    overlay (phVaddr ph) (phFilesz ph) (fun i => fileByte file (phOff ph + i)) f
  else f

/-- What `n` program headers from `off` on do, one after the other. -/
def eachHeader (step : ℕ → (ℕ → ℕ) → ℕ → ℕ) : ℕ → ℕ → (ℕ → ℕ) → ℕ → ℕ
  | 0, _, f => f
  | n + 1, off, f => eachHeader step n (off + proghdr) (step off f)

/-- The bytes after `n` program headers from `off` on. -/
def segments (file : List UInt8) (n off : ℕ) (f : ℕ → ℕ) : ℕ → ℕ :=
  eachHeader (fun off => segment file (header file off)) n off f

/-- Header `i` of those from `off` on. -/
abbrev headerAt (file : List UInt8) (off i : ℕ) : ℕ → ℕ := header file (off + i * proghdr)

theorem headerAt_succ (i : ℕ) : headerAt file (off + proghdr) i = headerAt file off (i + 1) := by
  rw [headerAt, headerAt, Nat.add_one_mul, Nat.add_assoc, Nat.add_comm proghdr]

/-- The segments lie below the size. -/
def Fits (file : List UInt8) (n off sz : ℕ) : Prop :=
  ∀ i < n, phType (headerAt file off i) = ELF_PROG_LOAD →
    phFilesz (headerAt file off i) ≤ phMemsz (headerAt file off i) ∧
      phVaddr (headerAt file off i) + phMemsz (headerAt file off i) ≤ sz

theorem headerAt_zero : headerAt file off 0 = header file off := by
  rw [headerAt, Nat.zero_mul, Nat.add_zero]

theorem Fits.cons (hrest : Fits file n (off + proghdr) sz)
    (hfirst : phType (header file off) = ELF_PROG_LOAD →
      phFilesz (header file off) ≤ phMemsz (header file off) ∧
        phVaddr (header file off) + phMemsz (header file off) ≤ sz) :
    Fits file (n + 1) off sz := by
  intro i hi hload
  cases i with
  | zero =>
      rw [headerAt_zero] at hload ⊢
      exact hfirst hload
  | succ i =>
      rw [← headerAt_succ] at hload ⊢
      exact hrest i (by omega) hload

theorem wordAt_congr {i : ℕ} (h : ∀ k < 4, f (i + k) = g (i + k)) : wordAt f i = wordAt g i := by
  have h₀ := h 0 (by decide)
  have h₁ := h 1 (by decide)
  have h₂ := h 2 (by decide)
  have h₃ := h 3 (by decide)
  rw [Nat.add_zero] at h₀
  rw [wordAt, wordAt, h₀, h₁, h₂, h₃]

/-- Byte `a` is one of segment `i` that the file has. -/
def InSegment (file : List UInt8) (off i a : ℕ) : Prop :=
  phType (headerAt file off i) = ELF_PROG_LOAD ∧ phVaddr (headerAt file off i) ≤ a ∧
    a < phVaddr (headerAt file off i) + phFilesz (headerAt file off i)

end Xv6.Vm
