import Xv6.Umalloc.Search
import Mathlib.Logic.Relation

/-!
# The heap of a program

A program calls `malloc` and `free` in any order, and gives each block back at most once.
`sbrk` answers as it likes, but what it returns lies above all earlier memory and above
the header `base`.

In every state the free list is a circular list in address order, and free blocks and
blocks in use tile the memory that `sbrk` has returned (`Sound`).  Every call ends, and
what `malloc` returns is as large as asked for and nobody else's (`user_heap`).
-/

namespace Xv6.Umalloc

open Cyclic Fuel Tiling
open Vm (uint)

variable {base nbytes p : ℕ}

/-- `segments` are the address and the size of each piece of memory that `sbrk` has returned,
and `live` the blocks that are in use. -/
structure State where
  heap : Heap
  live : Finset ℕ
  segments : List (ℕ × ℕ)

def memoryOf (segments : List (ℕ × ℕ)) : Set ℕ :=
  {x | ∃ segment ∈ segments, segment.1 ≤ x ∧ x < segment.1 + segment.2}

/-- What `sbrk` answers may depend on all that it has returned before. -/
abbrev Answers := List (ℕ × ℕ) → ℕ → Option ℕ

def sbrk (answers : Answers) (segments : List (ℕ × ℕ)) (n : ℕ) : Option ℕ × List (ℕ × ℕ) :=
  match answers segments n with
  | none => (none, segments)
  | some p => (some p, segments ++ [(p, n)])

/-- `sbrk` returns fresh memory. -/
def FreshAnswers (base : ℕ) (answers : Answers) : Prop :=
  ∀ segments n p, answers segments n = some p →
    (∀ segment ∈ segments, segment.1 + segment.2 ≤ p) ∧ base + HEADER ≤ p

/-- The size in bytes fits in an `int`. -/
def Small (nbytes : ℕ) : Prop :=
  ((nbytes + HEADER - 1) / HEADER + 1) * HEADER < 2 ^ 31

/-- What is in use after `malloc` has returned `r`. -/
def handedOut (r : Option ℕ) (live : Finset ℕ) : Finset ℕ :=
  match r with
  | none => live
  | some ap => insert (ap - HEADER) live

inductive Step (base : ℕ) : State → State → Prop
  | malloc {s : State} {nbytes : ℕ} {answers : Answers} {r : Option ℕ} {h : Heap}
      {segments : List (ℕ × ℕ)} (hsmall : Small nbytes) (hfresh : FreshAnswers base answers)
      (hreturns : Returns (fun fuel => malloc (sbrk answers) base fuel nbytes s.heap s.segments)
        (r, h, segments)) :
      Step base s ⟨h, handedOut r s.live, segments⟩
  | free {s : State} {p : ℕ} {h : Heap} (hlive : p ∈ s.live)
      (hreturns : Returns (fun fuel => free fuel s.heap (p + HEADER)) h) :
      Step base s ⟨h, s.live.erase p, s.segments⟩

/-- A program that has not called `malloc`; what stands in the memory does not matter. -/
def start (header : ℕ → Header) : State := ⟨⟨header, none⟩, ∅, []⟩

/-! ## What holds in every state -/

def Invariant (base : ℕ) (s : State) : Prop :=
  ∃ l, Ready base s.heap l s.live (memoryOf s.segments)

theorem memoryOf_append (segments : List (ℕ × ℕ)) (p n : ℕ) :
    memoryOf (segments ++ [(p, n)]) = memoryOf segments ∪ Set.Ico p (p + n) := by
  ext x
  simp only [memoryOf, List.mem_append, List.mem_singleton, Set.mem_ofPred_eq, Set.mem_union,
    Set.mem_Ico]
  constructor
  · rintro ⟨segment, hmem | rfl, hx⟩
    · exact Or.inl ⟨segment, hmem, hx⟩
    · exact Or.inr hx
  · rintro (⟨segment, hmem, hx⟩ | hx)
    · exact ⟨segment, Or.inl hmem, hx⟩
    · exact ⟨(p, n), Or.inr rfl, hx⟩

theorem Small.units (h : Small nbytes) :
    units nbytes = (nbytes + HEADER - 1) / HEADER + 1 ∧
      uint (moreUnits (units nbytes) * HEADER) = HEADER * moreUnits (units nbytes) := by
  unfold Small HEADER at h
  have hunits : Umalloc.units nbytes = (nbytes + HEADER - 1) / HEADER + 1 := by
    unfold Umalloc.units uint HEADER
    rw [Nat.mod_eq_of_lt (by omega)]
  refine ⟨hunits, ?_⟩
  have hlt : moreUnits (Umalloc.units nbytes) * HEADER < 2 ^ 32 := by
    rw [hunits]
    unfold moreUnits HEADER
    split <;> omega
  rw [uint, Nat.mod_eq_of_lt hlt, Nat.mul_comm]

/-- What `malloc` promises of the result `r`. -/
structure Good (s : State) (nbytes : ℕ) (h : Heap) (segments : List (ℕ × ℕ)) (ap : ℕ) : Prop where
  header : HEADER ≤ ap
  new : ap - HEADER ∉ s.live
  /-- The bytes are part of the block, and the block is memory of the program. -/
  room : ap + nbytes ≤ h.next (ap - HEADER)
  memory : Set.Ico (ap - HEADER) (h.next (ap - HEADER)) ⊆ memoryOf segments
  /-- Other blocks in use are as they were, and none of them has a byte of the new one. -/
  others : ∀ p ∈ s.live, h.next p = s.heap.next p ∧
    Disjoint (Set.Ico p (h.next p)) (Set.Ico (ap - HEADER) (h.next (ap - HEADER)))

theorem Served.good {s : State} {h : Heap} {segments : List (ℕ × ℕ)} {q : ℕ}
    (hserved : Served base s.heap s.live (units nbytes) h (memoryOf segments) q)
    (hsmall : Small nbytes) : Good s nbytes h segments (q + HEADER) := by
  obtain ⟨l, hb⟩ := hserved.blocks
  have hq : q ∈ l.toFinset ∪ insert q s.live := by simp
  have hsub : q + HEADER - HEADER = q := Nat.add_sub_cancel q HEADER
  have hnew := hserved.new
  refine ⟨Nat.le_add_left _ _, by rwa [hsub], ?_, ?_, fun p hp => ⟨?_, ?_⟩⟩
  · rw [hsub, Heap.next, hserved.size, hsmall.units.1]
    unfold HEADER
    omega
  · rw [hsub]
    exact fun x hx => (hb.tiles.cover x).mpr ⟨q, hq, hx⟩
  · rw [Heap.next, Heap.next, hserved.others p hp]
  · rw [hsub]
    have hp' : p ∈ l.toFinset ∪ insert q s.live := by simp [hp]
    exact hb.tiles.disjoint hp' hq fun heq => hnew (heq ▸ hp)

/-- A call of `malloc` ends.  It returns 0 and leaves the blocks as they are, or a new block. -/
theorem Invariant.malloc {s : State} (hs : Invariant base s) (hsmall : Small nbytes)
    {answers : Answers} (hfresh : FreshAnswers base answers) :
    ∃ r h segments,
      Returns (fun fuel => malloc (sbrk answers) base fuel nbytes s.heap s.segments)
        (r, h, segments) ∧
      Invariant base ⟨h, handedOut r s.live, segments⟩ ∧
      (r = none → ∃ n, answers s.segments n = none) ∧
      ∀ ap, r = some ap → Good s nbytes h segments ap := by
  obtain ⟨l, hready⟩ := hs
  have hserve : ∀ {q h segments},
      Served base s.heap s.live (units nbytes) h (memoryOf segments) q →
      Invariant base ⟨h, handedOut (some (q + HEADER)) s.live, segments⟩ ∧
        ∀ ap, some (q + HEADER) = some ap → Good s nbytes h segments ap := by
    intro q h segments hserved
    obtain ⟨l', hb⟩ := hserved.blocks
    refine ⟨⟨l', Or.inl ?_⟩, fun ap hap => ?_⟩
    · show Blocks base h l' (insert (q + HEADER - HEADER) s.live) _
      rwa [Nat.add_sub_cancel]
    · rw [← Option.some.inj hap]
      exact hserved.good hsmall
  have harg := hsmall.units.2
  have hfreshp : ∀ p segments, sbrk answers s.segments
      (uint (moreUnits (units nbytes) * HEADER)) = (some p, segments) →
      Fresh base (memoryOf s.segments) p := fun p segments hsbrk => by
    rw [sbrk] at hsbrk
    split at hsbrk
    · simp at hsbrk
    · rename_i p' hanswer
      obtain ⟨rfl, -⟩ := by simpa using hsbrk
      obtain ⟨habove, hbase⟩ := hfresh _ _ _ hanswer
      exact ⟨fun x ⟨segment, hmem, hx⟩ => hx.2.trans_le (habove segment hmem), hbase⟩
  rcases hready.malloc_returns hfreshp with ⟨q, h', hreturns, hserved⟩ |
    ⟨h', segments, hreturns, hsbrk, hb⟩ | ⟨q, h', p, segments, hreturns, hsbrk, hserved⟩
  · obtain ⟨hinv, hgood⟩ := hserve hserved
    exact ⟨_, h', s.segments, hreturns, hinv, by simp, hgood⟩
  · rw [sbrk] at hsbrk
    split at hsbrk
    · rename_i hanswer
      obtain rfl : s.segments = segments := by simpa using hsbrk
      exact ⟨none, h', s.segments, hreturns, ⟨l, Or.inl hb⟩, fun _ => ⟨_, hanswer⟩, by simp⟩
    · simp at hsbrk
  · rw [sbrk, harg] at hsbrk
    split at hsbrk
    · simp at hsbrk
    · obtain ⟨rfl, rfl⟩ := by simpa using hsbrk
      rw [← memoryOf_append] at hserved
      obtain ⟨hinv, hgood⟩ := hserve hserved
      exact ⟨_, h', _, hreturns, hinv, by simp, hgood⟩

/-- A call of `free` with a block in use ends. -/
theorem Invariant.free {s : State} (hs : Invariant base s) (hp : p ∈ s.live) :
    ∃ h, Returns (fun fuel => free fuel s.heap (p + HEADER)) h ∧
      Invariant base ⟨h, s.live.erase p, s.segments⟩ ∧
      ∀ q ∈ s.live.erase p, h.next q = s.heap.next q := by
  obtain ⟨l, hb | ⟨-, -, hlive, -⟩⟩ := hs
  · rw [← Finset.insert_erase hp] at hb
    obtain ⟨h', l', hrun, hb', -, hsizes⟩ := hb.free (Finset.notMem_erase p s.live)
    refine ⟨h', ⟨l.length + 1, fun fuel hfuel => hrun fuel hfuel⟩, ⟨l', Or.inl hb'⟩,
      fun q hq => ?_⟩
    rw [Heap.next, Heap.next, hsizes q hq]
  · rw [hlive] at hp
    simp at hp

theorem Step.invariant {s t : State} (hstep : Step base s t) (hs : Invariant base s) :
    Invariant base t := by
  cases hstep with
  | malloc hsmall hfresh hreturns =>
      obtain ⟨r, h, segments, hreturns', hinv, -, -⟩ := hs.malloc hsmall hfresh
      obtain ⟨rfl, rfl, rfl⟩ := by simpa using hreturns.unique hreturns'
      exact hinv
  | free hlive hreturns =>
      obtain ⟨h, hreturns', hinv, -⟩ := hs.free hlive
      obtain rfl := hreturns.unique hreturns'
      exact hinv

theorem invariant_start (base : ℕ) (header : ℕ → Header) : Invariant base (start header) := by
  refine ⟨[], Or.inr ⟨rfl, rfl, rfl, ?_⟩⟩
  ext x
  simp [memoryOf, start]

theorem invariant_of_run {header : ℕ → Header} {s : State}
    (run : Relation.ReflTransGen (Step base) (start header) s) : Invariant base s := by
  induction run with
  | refl => exact invariant_start base header
  | tail _ hstep ih => exact hstep.invariant ih

/-! ## What is promised -/

/-- The free list `base :: l` of a heap, and the tiling of its memory. -/
structure Sound (base : ℕ) (s : State) (l : List ℕ) : Prop where
  /-- There is no list before the first call. -/
  circular : s.heap.freep ≠ none → Cycle s.heap.ptr (base :: l)
  freep : ∀ p, s.heap.freep = some p → p ∈ base :: l
  unused : s.heap.freep = none → l = [] ∧ s.live = ∅ ∧ memoryOf s.segments = ∅
  /-- The blocks are in address order, do not overlap and do not touch. -/
  ordered : s.heap.freep ≠ none → (base :: l).Pairwise fun p q => p < q ∧ s.heap.next p < q
  apart : ∀ p ∈ s.live, p ∉ base :: l
  tiles : Tiles s.heap.next (l.toFinset ∪ s.live) (memoryOf s.segments)

theorem Invariant.sound {s : State} (hs : Invariant base s) : ∃ l, Sound base s l := by
  obtain ⟨l, hb | ⟨hfreep, rfl, hlive, hmemory⟩⟩ := hs
  · obtain ⟨f, hf, hfreep⟩ := hb.list.freep
    refine ⟨l, fun _ => hb.list.cycle, fun p hp => ?_, fun hnone => ?_, fun _ => ?_,
      fun p hp hmem => ?_, hb.tiles⟩
    · rw [hfreep] at hp
      exact Option.some.inj hp ▸ hf
    · rw [hfreep] at hnone
      simp at hnone
    · exact hb.list.spaced.imp fun {p q} hlt => ⟨(s.heap.le_next p).trans_lt hlt, hlt⟩
    · rcases List.mem_cons.mp hmem with rfl | hmem
      · exact lt_irrefl _ (hb.base_lt (Or.inr hp))
      · exact hb.apart p hp hmem
  · refine ⟨[], fun h => absurd hfreep h, fun p hp => ?_, fun _ => ⟨rfl, hlive, hmemory⟩,
      fun h => absurd hfreep h, fun p hp => ?_, ?_⟩
    · rw [hfreep] at hp
      simp at hp
    · rw [hlive] at hp
      simp at hp
    · rw [hlive, hmemory]
      simpa using Tiles.empty

/-- However a program uses its heap, the free list is as it should be, free blocks and blocks in
use tile its memory, every call ends, and `malloc` returns a block that can be used, or 0 where
`sbrk` fails. -/
theorem user_heap {header : ℕ → Header} {s : State}
    (run : Relation.ReflTransGen (Step base) (start header) s) :
    (∃ l, Sound base s l) ∧
    (∀ nbytes answers, Small nbytes → FreshAnswers base answers → ∃ r h segments,
      Returns (fun fuel => malloc (sbrk answers) base fuel nbytes s.heap s.segments)
        (r, h, segments) ∧
      Step base s ⟨h, handedOut r s.live, segments⟩ ∧
      (r = none → ∃ n, answers s.segments n = none) ∧
      ∀ ap, r = some ap → Good s nbytes h segments ap) ∧
    ∀ p ∈ s.live, ∃ h, Returns (fun fuel => free fuel s.heap (p + HEADER)) h ∧
      Step base s ⟨h, s.live.erase p, s.segments⟩ ∧
      ∀ q ∈ s.live.erase p, h.next q = s.heap.next q := by
  have hs := invariant_of_run run
  refine ⟨hs.sound, fun nbytes answers hsmall hfresh => ?_, fun p hp => ?_⟩
  · obtain ⟨r, h, segments, hreturns, -, hnone, hgood⟩ := hs.malloc hsmall hfresh
    exact ⟨r, h, segments, hreturns, Step.malloc hsmall hfresh hreturns, hnone, hgood⟩
  · obtain ⟨h, hreturns, -, hothers⟩ := hs.free hp
    exact ⟨h, hreturns, Step.free hp hreturns, hothers⟩

/-- After one `malloc(100)`. -/
theorem user_heap_once : ∃ s, (∃ l, Sound 64 s l) ∧ s.live.Nonempty := by
  have hsmall : Small 100 := by
    unfold Small HEADER
    decide
  have hfresh : FreshAnswers 64 fun segments _ => if segments = [] then some 4096 else none := by
    intro segments n p hp
    obtain ⟨rfl, rfl⟩ : segments = [] ∧ 4096 = p := by simpa using hp
    exact ⟨fun segment hmem => by simp at hmem, by decide⟩
  obtain ⟨r, h, segments, -, hstep, hnone, -⟩ :=
    (user_heap (Relation.ReflTransGen.refl : Relation.ReflTransGen (Step 64)
      (start fun _ => ⟨0, 0⟩) _)).2.1 100 _ hsmall hfresh
  refine ⟨_, (user_heap (Relation.ReflTransGen.single hstep)).1, ?_⟩
  cases r with
  | none =>
      obtain ⟨n, hanswer⟩ := hnone rfl
      simp [start] at hanswer
  | some ap => exact Finset.insert_nonempty _ _

end Xv6.Umalloc
