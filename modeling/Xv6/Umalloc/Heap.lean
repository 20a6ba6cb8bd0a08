import Mathlib.Algebra.Order.Ring.Int
import Mathlib.Algebra.Order.Ring.Nat
import Xv6.Lib.Cyclic
import Xv6.Vm.Code

/-!
# `umalloc.c`

The memory allocator of the user programs.  The memory of the program is modelled as far
as it holds headers: `header p` is what stands at address `p`.  Two headers never
overlap, since blocks do not.  Addresses count bytes.

What `sbrk` does is a parameter, with a state of its own.  The loops of `free` and of
`malloc` take at most `fuel` rounds, and `none` says that these were not enough.
-/

namespace Xv6.Umalloc

open Vm (uint)

structure Header where
  ptr : ℕ
  size : ℕ

/-- `sizeof(Header)` -/
def HEADER : ℕ := 8

structure Heap where
  header : ℕ → Header
  freep : Option ℕ

namespace Heap

def ptr (h : Heap) (p : ℕ) : ℕ := (h.header p).ptr

def size (h : Heap) (p : ℕ) : ℕ := (h.header p).size

def setPtr (h : Heap) (p q : ℕ) : Heap :=
  { h with header := Function.update h.header p { h.header p with ptr := q } }

def setSize (h : Heap) (p : ℕ) (n : ℕ) : Heap :=
  { h with header := Function.update h.header p { h.header p with size := n } }

/-- The address after block `p`: `p + p->s.size`. -/
def next (h : Heap) (p : ℕ) : ℕ := p + HEADER * h.size p

end Heap

/-! ## `free` -/

/-- The loop of `free` from `p` on. -/
def findPlace (h : Heap) (bp : ℕ) : ℕ → ℕ → Option ℕ
  | 0, _ => none
  | fuel + 1, p =>
      if p < bp ∧ bp < h.ptr p then some p
      else if h.ptr p ≤ p ∧ (p < bp ∨ bp < h.ptr p) then some p
      else findPlace h bp fuel (h.ptr p)

/-- Block `bp` is joined to the block after it, or linked to it. -/
def joinUpper (h : Heap) (bp p : ℕ) : Heap :=
  if h.next bp = h.ptr p then
    (h.setSize bp (h.size bp + h.size (h.ptr p))).setPtr bp (h.ptr (h.ptr p))
  else h.setPtr bp (h.ptr p)

/-- Block `bp` is joined to the block `p` before it, or linked to it. -/
def joinLower (h : Heap) (bp p : ℕ) : Heap :=
  if h.next p = bp then (h.setSize p (h.size p + h.size bp)).setPtr p (h.ptr bp)
  else h.setPtr p bp

def free (fuel : ℕ) (h : Heap) (ap : ℕ) : Option Heap := do
  let bp := ap - HEADER
  let freep ← h.freep
  let p ← findPlace h bp fuel freep
  some { joinLower (joinUpper h bp p) bp p with freep := some p }

/-! ## `malloc` -/

section

variable {σ : Type} (sbrk : σ → ℕ → Option ℕ × σ)

/-- What `morecore` asks for. -/
def moreUnits (nu : ℕ) : ℕ := if nu < 4096 then 4096 else nu

/-- `none` within the result is the null pointer. -/
def morecore (fuel nu : ℕ) (h : Heap) (s : σ) : Option (Option ℕ × Heap × σ) :=
  match sbrk s (uint (moreUnits nu * HEADER)) with
  | (none, s) => some (none, h, s)
  | (some p, s) => do
      let h ← free fuel (h.setSize p (moreUnits nu)) (p + HEADER)
      some (h.freep, h, s)

/-- Block `p`, or its tail, is taken out of the free list. -/
def take (nunits : ℕ) (prevp p : ℕ) (h : Heap) : ℕ × Heap :=
  if h.size p = nunits then
    (p + HEADER, { h.setPtr prevp (h.ptr p) with freep := some prevp })
  else
    let h := h.setSize p (h.size p - nunits)
    let p := h.next p
    (p + HEADER, { h.setSize p nunits with freep := some prevp })

/-- The loop of `malloc`. -/
def search (nunits : ℕ) : ℕ → ℕ → ℕ → Heap → σ → Option (Option ℕ × Heap × σ)
  | 0, _, _, _, _ => none
  | fuel + 1, prevp, p, h, s =>
      if nunits ≤ h.size p then
        let (r, h) := take nunits prevp p h
        some (some r, h, s)
      else if h.freep = some p then
        match morecore sbrk fuel nunits h s with
        | none => none
        | some (none, h, s) => some (none, h, s)
        | some (some p, h, s) => search nunits fuel p (h.ptr p) h s
      else search nunits fuel p (h.ptr p) h s

/-- `(nbytes + sizeof(Header) - 1)/sizeof(Header) + 1`, of `uint`s -/
def units (nbytes : ℕ) : ℕ := uint (nbytes + HEADER - 1) / HEADER + 1

/-- The static variable `base` is at address `base`. -/
def malloc (base : ℕ) (fuel nbytes : ℕ) (h : Heap) (s : σ) :
    Option (Option ℕ × Heap × σ) :=
  match h.freep with
  | some freep => search sbrk (units nbytes) fuel freep (h.ptr freep) h s
  | none =>
      let h := { (h.setPtr base base).setSize base 0 with freep := some base }
      search sbrk (units nbytes) fuel base (h.ptr base) h s

end

end Xv6.Umalloc
