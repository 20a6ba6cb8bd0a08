import Xv6.Vm.ExecStack

/-!
# A successful `exec`

Where `exec` returns 0, the new address space holds the segments of the file and zeros
below the stack page, and the stack page holds the arguments.  Where they do not fit,
`exec` fails, and it is clean.

Both need that what is behind a null pointer is harmless, since `copyout` may otherwise
write to any page that the caller names.
-/

namespace Xv6.Vm

open Allocation Logic

variable {lay : Layout} {v : View Frame Page Curproc} {enough : ℕ}
variable {panics : View Frame Page Curproc → Prop} {file : List UInt8} {argv : List (List ℕ)}
variable {path : List ℕ}

/-- Of the bytes `f` up to the end of page `k`, those of the segments are the file's, and the
others are 0. -/
structure Loaded (file : List UInt8) (n off : ℕ) (f : ℕ → ℕ) (k : ℕ) : Prop where
  below : ∀ i < n, phType (headerAt file off i) = ELF_PROG_LOAD →
    phVaddr (headerAt file off i) + phFilesz (headerAt file off i) ≤ k * PGSIZE
  bytes : ∀ i < n, phType (headerAt file off i) = ELF_PROG_LOAD →
    ∀ j < phFilesz (headerAt file off i),
      f (phVaddr (headerAt file off i) + j) = fileByte file (phOff (headerAt file off i) + j)
  zeros : ∀ a < (k + 1) * PGSIZE, (∀ i < n, ¬ InSegment file off i a) → f a = 0

end Xv6.Vm
