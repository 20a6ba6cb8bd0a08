import Xv6.Umalloc.Heap
import Xv6.Lib.Tiling
import Mathlib.Data.Finset.Max

/-!
# The free list

The free list is circular and in address order, from the header `base`, which is below
all blocks and has size 0.  Between a block and the next one on the list there is always
something: what touches is joined.

`Blocks` adds the blocks that are in use.  Free blocks and blocks in use tile the memory
that has come from `sbrk`.  `free` moves one block from the second kind to the first
(`Blocks.free`): the place that its loop finds is the last block below the one that is
freed (`FreeList.place_iff`).
-/

namespace Xv6.Umalloc

open Cyclic Tiling

variable {base bp p q y : ℕ} {h h' : Heap} {l pre post post' : List ℕ}
variable {live : Finset ℕ} {memory : Set ℕ}

/-! ## The fields of headers -/

theorem Heap.ptr_setPtr (h : Heap) (p q r : ℕ) :
    (h.setPtr p q).ptr r = if r = p then q else h.ptr r := by
  unfold ptr setPtr Function.update
  dsimp only
  split <;> simp_all

@[simp] theorem Heap.size_setPtr (h : Heap) (p q r : ℕ) : (h.setPtr p q).size r = h.size r := by
  unfold size setPtr Function.update
  dsimp only
  split <;> simp_all

theorem Heap.size_setSize (h : Heap) (p : ℕ) (n : ℕ) (r : ℕ) :
    (h.setSize p n).size r = if r = p then n else h.size r := by
  unfold size setSize Function.update
  dsimp only
  split <;> simp_all

@[simp] theorem Heap.ptr_setSize (h : Heap) (p : ℕ) (n : ℕ) (r : ℕ) :
    (h.setSize p n).ptr r = h.ptr r := by
  unfold ptr setSize Function.update
  dsimp only
  split <;> simp_all

@[simp] theorem Heap.next_setPtr (h : Heap) (p q r : ℕ) : (h.setPtr p q).next r = h.next r := by
  rw [next, next, size_setPtr]

theorem Heap.next_setSize (h : Heap) (p : ℕ) (n : ℕ) (r : ℕ) :
    (h.setSize p n).next r = if r = p then r + HEADER * n else h.next r := by
  rw [next, size_setSize]
  split <;> rfl

theorem Heap.le_next (h : Heap) (p : ℕ) : p ≤ h.next p := Nat.le_add_right _ _

/-! ## The free list -/

structure FreeList (base : ℕ) (h : Heap) (l : List ℕ) : Prop where
  cycle : Cycle h.ptr (base :: l)
  spaced : (base :: l).Pairwise fun p q => h.next p < q
  base_size : h.size base = 0
  freep : ∃ p ∈ base :: l, h.freep = some p

/-- The free list, and the blocks in use. -/
structure Blocks (base : ℕ) (h : Heap) (l : List ℕ) (live : Finset ℕ) (memory : Set ℕ) :
    Prop where
  list : FreeList base h l
  tiles : Tiles h.next (l.toFinset ∪ live) memory
  apart : ∀ p ∈ live, p ∉ l
  above : ∀ x ∈ memory, base + HEADER ≤ x

namespace FreeList

theorem sorted (hl : FreeList base h l) : (base :: l).Pairwise (· < ·) :=
  hl.spaced.imp fun {p _} hlt => (h.le_next p).trans_lt hlt

theorem nodup (hl : FreeList base h l) : (base :: l).Nodup :=
  hl.sorted.imp fun hlt => hlt.ne

theorem base_le (hl : FreeList base h l) (hp : p ∈ base :: l) : base ≤ p := by
  rcases List.mem_cons.mp hp with rfl | hp
  · exact le_rfl
  · exact ((List.pairwise_cons.mp hl.sorted).1 p hp).le

theorem next_base (hl : FreeList base h l) : h.next base = base := by
  rw [Heap.next, hl.base_size, Nat.mul_zero, Nat.add_zero]

/-- What stands before and after a block of the list. -/
theorem around (hl : FreeList base h l) (heq : base :: l = pre ++ p :: post) :
    h.ptr p = start post base ∧ (∀ q ∈ pre, h.next q < p) ∧ ∀ q ∈ post, h.next p < q := by
  have hpath : Path h.ptr (base :: l) base := cycle_cons.mp hl.cycle
  have hspaced := hl.spaced
  rw [heq, path_append, start_cons, path_cons] at hpath
  rw [heq, List.pairwise_append, List.pairwise_cons] at hspaced
  exact ⟨hpath.2.1, fun q hq => hspaced.2.2 q hq p List.mem_cons_self, hspaced.2.1.1⟩

end FreeList

/-! ## The place of a block -/

/-- Where the loop of `free` stops. -/
def Place (h : Heap) (bp p : ℕ) : Prop :=
  p < bp ∧ bp < h.ptr p ∨ h.ptr p ≤ p ∧ (p < bp ∨ bp < h.ptr p)

/-- The loop stops at the only place on its way. -/
theorem findPlace_eq {fuel : ℕ} (hpath : Path h.ptr l y) (hp : p ∈ l) (hplace : Place h bp p)
    (honly : ∀ q ∈ l, Place h bp q → q = p) (hfuel : l.length ≤ fuel) :
    findPlace h bp fuel (start l y) = some p := by
  induction l generalizing fuel with
  | nil => simp at hp
  | cons q l ih =>
      obtain ⟨fuel, rfl⟩ := Nat.exists_eq_add_of_le hfuel
      rw [List.length_cons, Nat.add_right_comm, start_cons, findPlace]
      rw [path_cons] at hpath
      split
      · rename_i hhere
        rw [honly q List.mem_cons_self (Or.inl hhere)]
      split
      · rename_i hhere
        rw [honly q List.mem_cons_self (Or.inr hhere)]
      · rename_i hnot₁ hnot₂
        have hne : p ≠ q := by
          rintro rfl
          exact hplace.elim hnot₁ hnot₂
        rw [hpath.1]
        exact ih hpath.2 ((List.mem_cons.mp hp).resolve_left hne)
          (fun r hr => honly r (List.mem_cons_of_mem q hr)) (Nat.le_add_right _ _)

/-- The place is the last block below the one that is freed. -/
theorem FreeList.place_iff (hl : FreeList base h l) (hbp : base < bp) (hout : bp ∉ l)
    (hp : p ∈ base :: l) :
    Place h bp p ↔ p < bp ∧ ∀ q ∈ base :: l, q < bp → q ≤ p := by
  obtain ⟨pre, post, heq⟩ := List.append_of_mem hp
  obtain ⟨hptr, hpre, hpost⟩ := hl.around heq
  have hbase := hl.base_le hp
  have hsorted := hl.sorted
  rw [heq] at hsorted ⊢
  rw [List.pairwise_append, List.pairwise_cons] at hsorted
  obtain ⟨-, ⟨hafter, hrest⟩, hbefore⟩ := hsorted
  replace hbefore : ∀ q ∈ pre, q < p := fun q hq => hbefore q hq p List.mem_cons_self
  cases post with
  | nil =>
      -- the list wraps around at `p`
      rw [start_nil] at hptr
      have hplace : Place h bp p ↔ p < bp := by
        unfold Place
        omega
      rw [hplace]
      refine (and_iff_left_of_imp fun _ q hq _ => ?_).symm
      rcases List.mem_append.mp hq with hq | hq
      · exact (hbefore q hq).le
      · exact (List.mem_singleton.mp hq).le
  | cons y post =>
      rw [start_cons] at hptr
      have hpy := hafter y List.mem_cons_self
      have hplace : Place h bp p ↔ p < bp ∧ bp < y := by
        unfold Place
        omega
      rw [hplace]
      refine and_congr_right fun _ => ⟨fun hlt q hq hqbp => ?_, fun hall => ?_⟩
      · rcases List.mem_append.mp hq with hq | hq
        · exact (hbefore q hq).le
        rcases List.mem_cons.mp hq with rfl | hq
        · exact le_rfl
        rcases List.mem_cons.mp hq with rfl | hq
        · omega
        · have hyq := (List.pairwise_cons.mp hrest).1 q hq
          omega
      · have hy : y ∈ base :: l := by
          rw [heq]
          simp
        have hyp : ¬ y < bp := fun hlt => absurd (hall y (by simp) hlt) (not_le.mpr hpy)
        have hne : y ≠ bp := by
          rintro rfl
          rcases List.mem_cons.mp hy with rfl | hy
          · omega
          · exact hout hy
        omega

theorem exists_place (l : List ℕ) (hbp : base < bp) :
    ∃ p ∈ base :: l, p < bp ∧ ∀ q ∈ base :: l, q < bp → q ≤ p := by
  have hne : ((base :: l).toFinset.filter (· < bp)).Nonempty :=
    ⟨base, Finset.mem_filter.mpr ⟨by simp, hbp⟩⟩
  obtain ⟨p, hp, hmax⟩ := Finset.exists_max_image _ id hne
  obtain ⟨hp, hlt⟩ := Finset.mem_filter.mp hp
  refine ⟨p, List.mem_toFinset.mp hp, hlt, fun q hq hqbp => ?_⟩
  exact hmax q (Finset.mem_filter.mpr ⟨List.mem_toFinset.mpr hq, hqbp⟩)

/-- The loop of `free` ends at the last block below the one that is freed. -/
theorem FreeList.findPlace (hl : FreeList base h l) (hbp : base < bp) (hout : bp ∉ l) :
    ∃ p freep, p ∈ base :: l ∧ p < bp ∧ (∀ q ∈ base :: l, q < bp → q ≤ p) ∧
      h.freep = some freep ∧
      ∀ fuel, l.length < fuel → Umalloc.findPlace h bp fuel freep = some p := by
  obtain ⟨p, hp, hlt, hlast⟩ := exists_place l hbp
  obtain ⟨freep, hmem, hfreep⟩ := hl.freep
  refine ⟨p, freep, hp, hlt, hlast, hfreep, fun fuel hfuel => ?_⟩
  -- the list from `freep` on
  obtain ⟨pre, post, heq⟩ := List.append_of_mem hmem
  have hcycle := hl.cycle
  rw [heq] at hcycle
  have hpath : Path h.ptr (freep :: (post ++ pre)) freep := cycle_cons.mp hcycle.rotate
  have hsame : ∀ q, q ∈ freep :: (post ++ pre) ↔ q ∈ base :: l := fun q => by
    rw [heq]
    simp only [List.mem_cons, List.mem_append]
    tauto
  have hlength : (freep :: (post ++ pre)).length = l.length + 1 := by
    have hcount := congrArg List.length heq
    simp only [List.length_cons, List.length_append] at hcount ⊢
    omega
  refine findPlace_eq hpath ((hsame p).mpr hp) ((hl.place_iff hbp hout hp).mpr ⟨hlt, hlast⟩)
    (fun q hq hplace => ?_) (by omega)
  have hq := (hsame q).mp hq
  obtain ⟨hqlt, hqlast⟩ := (hl.place_iff hbp hout hq).mp hplace
  exact le_antisymm (hlast q hq hqlt) (hqlast p hp hlt)

/-! ## `free` -/

namespace Blocks

theorem base_lt (hb : Blocks base h l live memory) (hp : p ∈ l ∨ p ∈ live) : base < p := by
  have hin : p ∈ l.toFinset ∪ live := by simpa using hp
  have habove := hb.above p (hb.tiles.start_mem hin)
  unfold HEADER at habove
  omega

theorem size_pos (hb : Blocks base h l live memory) (hp : p ∈ l ∨ p ∈ live) : 0 < h.size p := by
  have hlt : p < h.next p := hb.tiles.pos p (by simpa using hp)
  unfold Heap.next at hlt
  exact Nat.pos_of_ne_zero fun hzero => by
    rw [hzero, Nat.mul_zero, Nat.add_zero] at hlt
    exact lt_irrefl p hlt

end Blocks

theorem Blocks.of_list {list : List ℕ} (hlist : base :: l = list) (hpath : Path h.ptr list base)
    (hspaced : list.Pairwise fun p q => h.next p < q) (hsize : h.size base = 0)
    (hfreep : ∃ p ∈ list, h.freep = some p)
    (htiles : Tiles h.next (list.toFinset.erase base ∪ live) memory)
    (hapart : ∀ q ∈ live, q ∉ list) (habove : ∀ x ∈ memory, base + HEADER ≤ x) :
    Blocks base h l live memory := by
  subst hlist
  have hfree : FreeList base h l := ⟨cycle_cons.mpr hpath, hspaced, hsize, hfreep⟩
  have hbase : base ∉ l := (List.nodup_cons.mp hfree.nodup).1
  refine ⟨hfree, ?_, fun q hq hmem => hapart q hq (List.mem_cons_of_mem base hmem), habove⟩
  rwa [List.toFinset_cons, Finset.erase_insert (by simpa using hbase)] at htiles

/-- While `free` is at work: block `bp` is at its place between `pre ++ [p]` and `post`.  Where
`p` points does not matter. -/
structure Placed (base : ℕ) (h : Heap) (bp p : ℕ) (pre post : List ℕ) (live : Finset ℕ)
    (memory : Set ℕ) : Prop where
  before : Path h.ptr pre p
  after : Path h.ptr post base
  spaced : (pre ++ p :: post).Pairwise fun p q => h.next p < q
  head : (pre ++ [p]).head? = some base
  base_size : h.size base = 0
  tiles : Tiles h.next (((pre ++ p :: post).toFinset.erase base) ∪ insert bp live) memory
  apart : ∀ q ∈ live, q ∉ pre ++ p :: post
  out : bp ∉ live
  above : ∀ x ∈ memory, base + HEADER ≤ x
  lower : p < bp
  upper : ∀ q ∈ post, bp < q

namespace Placed

theorem mem_tiles : bp ∈ ((pre ++ p :: post).toFinset.erase base) ∪ insert bp live := by simp

variable (hb : Placed base h bp p pre post live memory)
include hb

theorem base_lt : base < bp := by
  have habove := hb.above bp (hb.tiles.start_mem mem_tiles)
  unfold HEADER at habove
  omega

theorem pre_lt (hq : q ∈ pre) : h.next q < p :=
  (List.pairwise_append.mp hb.spaced).2.2 q hq p List.mem_cons_self

theorem post_gt (hq : q ∈ post) : h.next p < q :=
  (List.pairwise_cons.mp (List.pairwise_append.mp hb.spaced).2.1).1 q hq

theorem base_le (hq : q ∈ pre ++ p :: post) : base ≤ q := by
  have hsorted : (pre ++ p :: post).Pairwise (· < ·) :=
    hb.spaced.imp fun {p _} hlt => (h.le_next p).trans_lt hlt
  have hhead := hb.head
  cases pre with
  | nil =>
      obtain rfl : p = base := by simpa using hhead
      rcases List.mem_cons.mp hq with rfl | hq
      · exact le_rfl
      · exact ((List.pairwise_cons.mp hsorted).1 q hq).le
  | cons a pre =>
      obtain rfl : a = base := by simpa using hhead
      rcases List.mem_cons.mp hq with rfl | hq
      · exact le_rfl
      · exact ((List.pairwise_cons.mp hsorted).1 q hq).le

theorem post_ne (hq : q ∈ post) : q ≠ base := by
  have hlt := hb.upper q hq
  have hbase := hb.base_lt
  omega

theorem tile_of_post (hq : q ∈ post) :
    q ∈ ((pre ++ p :: post).toFinset.erase base) ∪ insert bp live := by
  have hne := hb.post_ne hq
  simp [hq, hne]

theorem notMem : bp ∉ pre ++ p :: post := by
  intro hmem
  rcases List.mem_append.mp hmem with hpre | hmem
  · have hlt := hb.pre_lt hpre
    have hle := h.le_next bp
    have hlower := hb.lower
    omega
  rcases List.mem_cons.mp hmem with heq | hpost
  · exact absurd hb.lower (by omega)
  · exact lt_irrefl bp (hb.upper bp hpost)

theorem nodup : (pre ++ p :: post).Nodup :=
  hb.spaced.imp fun {p _} hlt => ((h.le_next p).trans_lt hlt).ne

/-- The block after `bp` becomes part of it. -/
theorem join {y : ℕ} {post' : List ℕ} (hpost : post = y :: post') (htouch : h.next bp = y)
    (hothers : ∀ q, q ≠ bp → h'.header q = h.header q) (hnext : h'.next bp = h.next y) :
    Placed base h' bp p pre post' live memory := by
  subst hpost
  have hnodup := hb.nodup
  have hy : y ∈ ((pre ++ p :: y :: post').toFinset.erase base) ∪ insert bp live :=
    hb.tile_of_post List.mem_cons_self
  have hybp : bp < y := hb.upper y List.mem_cons_self
  have hylive : y ∉ live := fun hmem => hb.apart y hmem (by simp)
  have hsame : ∀ q ∈ pre ++ p :: y :: post', h'.header q = h.header q := fun q hq =>
    hothers q fun heq => hb.notMem (heq ▸ hq)
  have hptr : ∀ q ∈ pre ++ p :: y :: post', h'.ptr q = h.ptr q := fun q hq => by
    rw [Heap.ptr, Heap.ptr, hsame q hq]
  have hstop : ∀ q, q ≠ bp → h'.next q = h.next q := fun q hq => by
    rw [Heap.next, Heap.next, Heap.size, Heap.size, hothers q hq]
  have hafter := hb.after
  rw [path_cons] at hafter
  have hsub : (pre ++ p :: post').Sublist (pre ++ p :: y :: post') :=
    List.Sublist.append_left ((List.sublist_cons_self y post').cons_cons p) pre
  have hyout : y ∉ pre ++ p :: post' := by
    have hmiddle : pre ++ p :: y :: post' = (pre ++ [p]) ++ y :: post' := by simp
    rw [hmiddle, List.nodup_middle, List.nodup_cons] at hnodup
    simpa using hnodup.1
  refine ⟨hb.before.congr fun q hq => hptr q (by simp [hq]),
    hafter.2.congr fun q hq => hptr q (by simp [hq]), ?_, hb.head, ?_, ?_,
    fun q hq hmem => hb.apart q hq (hsub.subset hmem), hb.out, hb.above, hb.lower,
    fun q hq => hb.upper q (List.mem_cons_of_mem y hq)⟩
  · refine (hb.spaced.sublist hsub).imp_of_mem fun {q r} hq _ hlt => ?_
    rwa [hstop q fun heq => hb.notMem (heq ▸ hsub.subset hq)]
  · have hbase := hb.base_lt
    rw [Heap.size, hothers base (by omega)]
    exact hb.base_size
  · have htiles := hb.tiles.join mem_tiles hy htouch hnext fun r _ hr _ => hstop r hr
    convert htiles using 1
    ext q
    simp only [Finset.mem_union, Finset.mem_erase, List.mem_toFinset, List.mem_append,
      List.mem_cons, Finset.mem_insert] at hyout ⊢
    constructor
    · intro hq
      refine ⟨?_, by tauto⟩
      rintro rfl
      rcases hq with hq | rfl | hq
      · tauto
      · exact lt_irrefl _ hybp
      · exact hylive hq
    · tauto

/-- After `joinUpper`, block `bp` points to what follows and does not touch it. -/
theorem joinUpper (hptr : h.ptr p = start post base) :
    ∃ post', Placed base (joinUpper h bp p) bp p pre post' live memory ∧
      (Umalloc.joinUpper h bp p).ptr bp = start post' base ∧
      (∀ q ∈ post', (Umalloc.joinUpper h bp p).next bp < q) ∧
      h.next bp ≤ (Umalloc.joinUpper h bp p).next bp ∧
      ∀ q, q ≠ bp → (Umalloc.joinUpper h bp p).header q = h.header q := by
  have hp : p ≠ bp := hb.lower.ne
  unfold Umalloc.joinUpper
  split
  · rename_i htouch
    -- it touches the next block
    cases post with
    | nil =>
        have hlt := hb.base_lt
        have hle := h.le_next bp
        rw [start_nil] at hptr
        omega
    | cons y post' =>
        rw [start_cons] at hptr
        rw [hptr] at htouch ⊢
        have hybp : bp < y := hb.upper y List.mem_cons_self
        have hothers : ∀ q, q ≠ bp → ((h.setSize bp (h.size bp + h.size y)).setPtr bp
            (h.ptr y)).header q = h.header q := fun q hq => by
          simp [Heap.setPtr, Heap.setSize, Function.update_of_ne hq]
        have hnext : ((h.setSize bp (h.size bp + h.size y)).setPtr bp (h.ptr y)).next bp =
            h.next y := by
          rw [Heap.next_setPtr, Heap.next_setSize, if_pos rfl, Nat.mul_add, ← Nat.add_assoc]
          show h.next bp + _ = _
          rw [htouch, Heap.next]
        refine ⟨post', hb.join rfl htouch hothers hnext, ?_, fun q hq => ?_, ?_, hothers⟩
        · have hafter := hb.after
          rw [path_cons] at hafter
          rw [Heap.ptr_setPtr, if_pos rfl, hafter.1]
        · rw [hnext]
          have hspaced := (List.pairwise_append.mp hb.spaced).2.1
          exact (List.pairwise_cons.mp (List.pairwise_cons.mp hspaced).2).1 q hq
        · rw [hnext, htouch]
          exact h.le_next y
  · rename_i htouch
    have hothers : ∀ q, q ≠ bp → (h.setPtr bp (h.ptr p)).header q = h.header q := fun q hq => by
      simp [Heap.setPtr, Function.update_of_ne hq]
    have hsame : ∀ q ∈ pre ++ p :: post, (h.setPtr bp (h.ptr p)).ptr q = h.ptr q := fun q hq => by
      have hne : q ≠ bp := fun heq => hb.notMem (heq ▸ hq)
      rw [Heap.ptr_setPtr, if_neg hne]
    refine ⟨post, ⟨hb.before.congr fun q hq => hsame q (by simp [hq]),
      hb.after.congr fun q hq => hsame q (by simp [hq]), ?_, hb.head, ?_, ?_, hb.apart, hb.out,
      hb.above, hb.lower, hb.upper⟩, ?_, fun q hq => ?_, (Heap.next_setPtr _ _ _ _).ge, hothers⟩
    · simpa using hb.spaced
    · simpa using hb.base_size
    · exact hb.tiles.congr fun q _ => Heap.next_setPtr _ _ _ _
    · rw [Heap.ptr_setPtr, if_pos rfl, hptr]
    · rw [Heap.next_setPtr]
      have hle : ∀ r ∈ post, h.next bp ≤ r := fun r hr =>
        hb.tiles.apart bp mem_tiles r (hb.tile_of_post hr) (hb.upper r hr)
      cases post with
      | nil => simp at hq
      | cons y post' =>
          rw [start_cons] at hptr
          have hy := hle y List.mem_cons_self
          rcases List.mem_cons.mp hq with rfl | hq
          · omega
          · have hspaced := (List.pairwise_append.mp hb.spaced).2.1
            have hlt := (List.pairwise_cons.mp (List.pairwise_cons.mp hspaced).2).1 q hq
            have hstep := h.le_next y
            omega

/-- After `joinLower`, the free list is complete again. -/
theorem joinLower (hptr : h.ptr bp = start post base) (hgap : ∀ q ∈ post, h.next bp < q) :
    ∃ l, Blocks base { Umalloc.joinLower h bp p with freep := some p } l live memory ∧
      (∃ q ∈ base :: l, q ≤ bp ∧ h.next bp ≤ (Umalloc.joinLower h bp p).next q) ∧
      ∀ q ∈ live, (Umalloc.joinLower h bp p).size q = h.size q := by
  have hlower := hb.lower
  have hne : p ≠ bp := hlower.ne
  have hnodup := hb.nodup
  have hp : p ∈ pre ++ p :: post := by simp
  have hout : ∀ q ∈ pre ++ post, q ≠ p ∧ q ≠ bp := fun q hq => by
    rw [List.nodup_middle, List.nodup_cons] at hnodup
    refine ⟨fun heq => hnodup.1 (heq ▸ hq), fun heq => hb.notMem ?_⟩
    rw [← heq]
    simp only [List.mem_append, List.mem_cons] at hq ⊢
    tauto
  obtain ⟨hpre, ⟨hppost, hpost⟩, hcross⟩ : pre.Pairwise (fun p q => h.next p < q) ∧
      ((∀ q ∈ post, h.next p < q) ∧ post.Pairwise fun p q => h.next p < q) ∧
      ∀ q ∈ pre, ∀ r ∈ p :: post, h.next q < r := by
    have hspaced := hb.spaced
    rwa [List.pairwise_append, List.pairwise_cons] at hspaced
  -- the list begins with `base` in either case
  have hlist : ∀ tail, ∃ l, base :: l = pre ++ p :: tail := fun tail => by
    have hhead := hb.head
    cases pre with
    | nil => exact ⟨tail, by rw [show p = base by simpa using hhead]; rfl⟩
    | cons a pre =>
        exact ⟨pre ++ p :: tail, by rw [show a = base by simpa using hhead]; rfl⟩
  unfold Umalloc.joinLower
  split
  · rename_i htouch
    obtain ⟨l, hl⟩ := hlist post
    set h' := (h.setSize p (h.size p + h.size bp)).setPtr p (h.ptr bp) with hh'
    have hsame : ∀ q, q ≠ p → h'.header q = h.header q := fun q hq => by
      simp [hh', Heap.setPtr, Heap.setSize, Function.update_of_ne hq]
    have hstop : ∀ q, q ≠ p → h'.next q = h.next q := fun q hq => by
      rw [Heap.next, Heap.next, Heap.size, Heap.size, hsame q hq]
    have hnext : h'.next p = h.next bp := by
      rw [hh', Heap.next_setPtr, Heap.next_setSize, if_pos rfl, Nat.mul_add, ← Nat.add_assoc]
      show h.next p + _ = _
      rw [htouch, Heap.next]
    have hptrs : ∀ q ∈ pre ++ post, h'.ptr q = h.ptr q := fun q hq => by
      rw [Heap.ptr, Heap.ptr, hsame q (hout q hq).1]
    -- `base` has size 0 and touches nothing
    have hpbase : p ≠ base := by
      rintro rfl
      rw [Heap.next, hb.base_size, Nat.mul_zero, Nat.add_zero] at htouch
      exact hne htouch
    have htile : p ∈ ((pre ++ p :: post).toFinset.erase base) ∪ insert bp live := by
      simp [hpbase]
    have hplive : ∀ q ∈ live, q ≠ p := fun q hq heq => hb.apart q hq (heq ▸ hp)
    refine ⟨l, Blocks.of_list hl ?_ ?_ ?_ ⟨p, hp, rfl⟩ ?_ hb.apart hb.above,
      ⟨p, hl ▸ hp, hlower.le, hnext.ge⟩, fun q hq => ?_⟩
    · rw [path_append, start_cons, path_cons]
      refine ⟨hb.before.congr fun q hq => hptrs q (by simp [hq]), ?_,
        hb.after.congr fun q hq => hptrs q (by simp [hq])⟩
      show h'.ptr p = _
      rw [hh', Heap.ptr_setPtr, if_pos rfl, hptr]
    · rw [List.pairwise_append, List.pairwise_cons]
      refine ⟨hpre.imp_of_mem fun {q r} hq _ hlt => ?_, ⟨fun q hq => ?_,
        hpost.imp_of_mem fun {q r} hq _ hlt => ?_⟩, fun q hq r hr => ?_⟩
      · show h'.next q < r
        rwa [hstop q (hout q (by simp [hq])).1]
      · show h'.next p < q
        rw [hnext]
        exact hgap q hq
      · show h'.next q < r
        rwa [hstop q (hout q (by simp [hq])).1]
      · show h'.next q < r
        rw [hstop q (hout q (by simp [hq])).1]
        exact hcross q hq r hr
    · show h'.size base = 0
      rw [Heap.size, hsame base hpbase.symm]
      exact hb.base_size
    · have htiles := hb.tiles.join htile mem_tiles htouch hnext fun r _ hr _ => hstop r hr
      show Tiles h'.next _ _
      convert htiles using 1
      ext q
      have hnot := hb.notMem
      have hbplive := hb.out
      simp only [Finset.mem_union, Finset.mem_erase, List.mem_toFinset, Finset.mem_insert]
      constructor
      · intro hq
        refine ⟨?_, by tauto⟩
        rintro rfl
        tauto
      · tauto
    · show h'.size q = h.size q
      rw [Heap.size, Heap.size, hsame q (hplive q hq)]
  · rename_i htouch
    obtain ⟨l, hl⟩ := hlist (bp :: post)
    set h' := h.setPtr p bp with hh'
    have hstop : ∀ q, h'.next q = h.next q := fun q => Heap.next_setPtr _ _ _ _
    have hptrs : ∀ q ∈ bp :: (pre ++ post), h'.ptr q = h.ptr q := fun q hq => by
      rw [hh', Heap.ptr_setPtr]
      rcases List.mem_cons.mp hq with rfl | hq
      · rw [if_neg hne.symm]
      · rw [if_neg (hout q hq).1]
    have hplt : h.next p < bp := by
      by_cases hpbase : p = base
      · rw [hpbase, Heap.next, hb.base_size, Nat.mul_zero, Nat.add_zero]
        exact hb.base_lt
      · have htile : p ∈ ((pre ++ p :: post).toFinset.erase base) ∪ insert bp live := by
          simp [hpbase]
        have hle := hb.tiles.apart p htile bp mem_tiles hlower
        omega
    refine ⟨l, Blocks.of_list hl ?_ ?_ ?_ ⟨p, by simp, rfl⟩ ?_ (fun q hq hmem => ?_) hb.above,
      ⟨bp, hl ▸ (by simp), le_rfl, (hstop bp).ge⟩, fun q hq => ?_⟩
    · rw [path_append, start_cons, path_cons, path_cons, start_cons]
      refine ⟨hb.before.congr fun q hq => hptrs q (by simp [hq]), ?_, ?_,
        hb.after.congr fun q hq => hptrs q (by simp [hq])⟩
      · show h'.ptr p = bp
        rw [hh', Heap.ptr_setPtr, if_pos rfl]
      · show h'.ptr bp = _
        rw [hptrs bp List.mem_cons_self, hptr]
    · show List.Pairwise (fun p q => h'.next p < q) _
      simp only [hstop]
      rw [List.pairwise_append, List.pairwise_cons, List.pairwise_cons]
      refine ⟨hpre, ⟨fun q hq => ?_, hgap, hpost⟩, fun q hq r hr => ?_⟩
      · rcases List.mem_cons.mp hq with rfl | hq
        · exact hplt
        · exact hppost q hq
      · have hqp := hcross q hq p List.mem_cons_self
        rcases List.mem_cons.mp hr with rfl | hr
        · exact hqp
        rcases List.mem_cons.mp hr with rfl | hr
        · exact hqp.trans hlower
        · exact hcross q hq r (List.mem_cons_of_mem p hr)
    · show h'.size base = 0
      rw [hh', Heap.size_setPtr]
      exact hb.base_size
    · show Tiles h'.next _ _
      have htiles := hb.tiles.congr fun q _ => hstop q
      have hbase := hb.base_lt.ne'
      convert htiles using 1
      ext q
      simp only [Finset.mem_union, Finset.mem_erase, List.mem_toFinset, Finset.mem_insert,
        List.mem_append, List.mem_cons]
      constructor
      · tauto
      · rintro (hq | rfl | hq)
        · tauto
        · tauto
        · tauto
    · have hnot := hb.apart q hq
      simp only [List.mem_append, List.mem_cons] at hmem hnot
      have hqbp : q ≠ bp := fun heq => hb.out (heq ▸ hq)
      tauto
    · exact Heap.size_setPtr _ _ _ _

end Placed

/-- `free` puts a block that is in use on the free list. -/
theorem Blocks.free (hb : Blocks base h l (insert bp live) memory) (hout : bp ∉ live) :
    ∃ h' l', (∀ fuel, l.length < fuel → Umalloc.free fuel h (bp + HEADER) = some h') ∧
      Blocks base h' l' live memory ∧ (∃ q ∈ base :: l', q ≤ bp ∧ h.next bp ≤ h'.next q) ∧
      ∀ q ∈ live, h'.size q = h.size q := by
  have hbp : base < bp := hb.base_lt (Or.inr (Finset.mem_insert_self bp live))
  have hnot : bp ∉ l := hb.apart bp (Finset.mem_insert_self bp live)
  obtain ⟨p, freep, hp, hlt, hlast, hfreep, hfind⟩ := hb.list.findPlace hbp hnot
  obtain ⟨pre, post, heq⟩ := List.append_of_mem hp
  obtain ⟨hptr, -, hpost⟩ := hb.list.around heq
  have hpath : Path h.ptr (base :: l) base := cycle_cons.mp hb.list.cycle
  have hspaced := hb.list.spaced
  have hbase : base ∉ l := (List.nodup_cons.mp hb.list.nodup).1
  have htiles := hb.tiles
  have hset : l.toFinset = (base :: l).toFinset.erase base := by
    rw [List.toFinset_cons, Finset.erase_insert (by simpa using hbase)]
  rw [hset, heq] at htiles
  rw [heq, path_append, start_cons, path_cons] at hpath
  rw [heq] at hspaced
  have hplaced : Placed base h bp p pre post live memory := by
    refine ⟨hpath.1, hpath.2.2, hspaced, ?_, hb.list.base_size, htiles, fun q hq hmem => ?_, hout,
      hb.above, hlt, fun q hq => ?_⟩
    · cases pre with
      | nil => rw [(List.cons.inj heq).1]; rfl
      | cons a pre => rw [(List.cons.inj heq).1]; rfl
    · rw [← heq] at hmem
      have hqin := Finset.mem_insert_of_mem (b := bp) hq
      rcases List.mem_cons.mp hmem with rfl | hmem
      · exact lt_irrefl _ (hb.base_lt (Or.inr hqin))
      · exact hb.apart q hqin hmem
    · have hq' : q ∈ base :: l := by
        rw [heq]
        simp [hq]
      have hpq := (h.le_next p).trans_lt (hpost q hq)
      have hne : q ≠ bp := by
        rintro rfl
        rcases List.mem_cons.mp hq' with rfl | hq'
        · exact lt_irrefl _ hbp
        · exact hnot hq'
      by_contra hle
      exact absurd (hlast q hq' (by omega)) (not_le.mpr hpq)
  obtain ⟨post', hplaced', hptr', hgap, hcovers, hsame⟩ := hplaced.joinUpper hptr
  obtain ⟨l', hblocks, ⟨q, hq, hqbp, hqnext⟩, hsizes⟩ := hplaced'.joinLower hptr' hgap
  refine ⟨_, l', fun fuel hfuel => ?_, hblocks, ⟨q, hq, hqbp, hcovers.trans hqnext⟩,
    fun q hq => ?_⟩
  · simp only [Umalloc.free, Nat.add_sub_cancel, hfreep, Option.bind_eq_bind, Option.bind_some,
      hfind fuel hfuel]
  · have hne : q ≠ bp := fun heq => hout (heq ▸ hq)
    show (Umalloc.joinLower _ bp p).size q = _
    rw [hsizes q hq, Heap.size, Heap.size, hsame q hne]

end Xv6.Umalloc
