import Xv6.Lib.Fuel
import Xv6.Umalloc.FreeList

/-!
# `malloc`

The loop of `malloc` goes round the free list once.  Either it finds a block that is large
enough and takes it, or its tail, out (`Blocks.take`), or it comes back to `freep` and
asks for more memory.  The block that `morecore` adds is large enough, so that the loop
does not ask twice.
-/

namespace Xv6.Umalloc

open Cyclic Fuel Tiling
open Vm (uint)

variable {base p q y freep prevp nunits nbytes : ℕ} {h h' : Heap} {l pre post ps : List ℕ}
variable {live : Finset ℕ} {memory memory' : Set ℕ} {σ : Type} {s s' : σ}
variable {sbrk : σ → ℕ → Option ℕ × σ}

/-- Of a request for `nunits` units: the block that has been taken into use. -/
structure Served (base : ℕ) (h : Heap) (live : Finset ℕ) (nunits : ℕ) (h' : Heap)
    (memory' : Set ℕ) (q : ℕ) : Prop where
  new : q ∉ live
  size : h'.size q = nunits
  blocks : ∃ l', Blocks base h' l' (insert q live) memory'
  others : ∀ r ∈ live, h'.size r = h.size r

/-- The node before `p` on the list. -/
theorem Blocks.before (hb : Blocks base h l live memory) (hprevp : prevp ∈ base :: l)
    (hptr : h.ptr prevp = p) (hp : p ∈ l) :
    ∃ pre post, base :: l = pre ++ prevp :: p :: post := by
  obtain ⟨pre, post, heq⟩ := List.append_of_mem hprevp
  obtain ⟨hnext, -, -⟩ := hb.list.around heq
  cases post with
  | nil =>
      rw [start_nil, hptr] at hnext
      exact absurd (hnext ▸ hb.base_lt (Or.inl hp)) (lt_irrefl _)
  | cons y post =>
      rw [start_cons, hptr] at hnext
      exact ⟨pre, post, hnext ▸ heq⟩

/-- A block that is large enough, or its tail, is taken out of the free list. -/
theorem Blocks.take (hb : Blocks base h l live memory) (hprevp : prevp ∈ base :: l)
    (hptr : h.ptr prevp = p) (hp : p ∈ l) (hpos : 0 < nunits) (hle : nunits ≤ h.size p) :
    ∃ q, (Umalloc.take nunits prevp p h).1 = q + HEADER ∧
      Served base h live nunits (Umalloc.take nunits prevp p h).2 memory q := by
  obtain ⟨pre, post, heq⟩ := hb.before hprevp hptr hp
  have hlist := hb.list
  have hnodup := hlist.nodup
  have hpath : Path h.ptr (base :: l) base := cycle_cons.mp hlist.cycle
  have hbasep := hb.base_lt (Or.inl hp)
  have hplive : p ∉ live := fun hmem => hb.apart p hmem hp
  have hbase : base ∉ l := (List.nodup_cons.mp hnodup).1
  unfold Umalloc.take
  split
  · rename_i hsize
    refine ⟨p, rfl, hplive, (Heap.size_setPtr _ _ _ _).trans hsize, ?_,
      fun r _ => Heap.size_setPtr _ _ _ _⟩
    -- the list without `p`
    obtain ⟨l', hl'⟩ : ∃ l', base :: l' = pre ++ prevp :: post := by
      cases pre with
      | nil => exact ⟨post, by rw [(List.cons.inj heq).1]; rfl⟩
      | cons a pre => exact ⟨pre ++ prevp :: post, by rw [(List.cons.inj heq).1]; rfl⟩
    rw [heq] at hnodup hpath
    have hmiddle : pre ++ prevp :: p :: post = (pre ++ [prevp]) ++ p :: post := by simp
    have hpout : p ∉ pre ++ prevp :: post := by
      have hnodup' := hnodup
      rw [hmiddle, List.nodup_middle, List.nodup_cons] at hnodup'
      simpa using hnodup'.1
    have hprevout : ∀ r ∈ pre ++ post, r ≠ prevp := fun r hr heq' => by
      rw [List.nodup_middle, List.nodup_cons] at hnodup
      refine hnodup.1 ?_
      rw [← heq']
      simp only [List.mem_append, List.mem_cons] at hr ⊢
      tauto
    have hsub : (pre ++ prevp :: post).Sublist (pre ++ prevp :: p :: post) :=
      List.Sublist.append_left ((List.sublist_cons_self p post).cons_cons prevp) pre
    refine ⟨l', Blocks.of_list hl' ?_ ?_ ?_ ⟨prevp, by simp, rfl⟩ ?_ (fun r hr hmem => ?_)
      hb.above⟩
    · refine hpath.remove ?_ fun r hr => ?_
      · show (h.setPtr prevp (h.ptr p)).ptr prevp = h.ptr p
        rw [Heap.ptr_setPtr, if_pos rfl]
      · show (h.setPtr prevp (h.ptr p)).ptr r = h.ptr r
        rw [Heap.ptr_setPtr, if_neg (hprevout r hr)]
    · have hspaced := hlist.spaced
      rw [heq] at hspaced
      refine (hspaced.sublist hsub).imp fun {r t} hlt => ?_
      show (h.setPtr prevp (h.ptr p)).next r < t
      rwa [Heap.next_setPtr]
    · exact (Heap.size_setPtr _ _ _ _).trans hlist.base_size
    · have htiles : Tiles (h.setPtr prevp (h.ptr p)).next (l.toFinset ∪ live) memory :=
        hb.tiles.congr fun r _ => Heap.next_setPtr _ _ _ _
      have hset : l.toFinset = (base :: l).toFinset.erase base := by
        rw [List.toFinset_cons, Finset.erase_insert (by simpa using hbase)]
      rw [hset, heq] at htiles
      show Tiles (h.setPtr prevp (h.ptr p)).next _ _
      convert htiles using 1
      ext r
      simp only [Finset.mem_union, Finset.mem_erase, List.mem_toFinset, Finset.mem_insert,
        List.mem_append, List.mem_cons]
      constructor
      · rintro (hr | rfl | hr)
        · tauto
        · exact Or.inl ⟨hbasep.ne', by simp⟩
        · tauto
      · tauto
    · rcases Finset.mem_insert.mp hr with rfl | hr
      · exact hpout hmem
      · have hin : r ∈ base :: l := heq ▸ hsub.subset hmem
        rcases List.mem_cons.mp hin with rfl | hin
        · exact lt_irrefl _ (hb.base_lt (Or.inr hr))
        · exact hb.apart r hr hin
  · rename_i hsize
    -- block `p` is cut at `m`
    have hlt : nunits < h.size p := lt_of_le_of_ne hle fun heq' => hsize heq'.symm
    dsimp only
    generalize hh₁ : h.setSize p (h.size p - nunits) = h₁
    have hnext₁ : ∀ r, h₁.next r = if r = p then r + HEADER * (h.size p - nunits) else h.next r :=
      fun r => by rw [← hh₁, Heap.next_setSize]
    obtain ⟨m, hm⟩ : ∃ m, h₁.next p = m := ⟨_, rfl⟩
    have hpm : m = p + HEADER * (h.size p - nunits) := by
      rw [← hm, hnext₁, if_pos rfl]
    have hend : m + HEADER * nunits = h.next p := by
      rw [hpm, Nat.add_assoc, ← Nat.mul_add, Nat.sub_add_cancel hle, Heap.next]
    have hplt : p < m := by
      unfold HEADER at hpm
      omega
    have hmlt : m < h.next p := by
      unfold HEADER at hend
      omega
    rw [hm]
    generalize hh₂ : h₁.setSize m nunits = h₂
    have hnext₂ : ∀ r, h₂.next r = if r = m then r + HEADER * nunits else h₁.next r := fun r => by
      rw [← hh₂, Heap.next_setSize]
    have hsize₂ : ∀ r, h₂.size r = if r = m then nunits else if r = p then h.size p - nunits
        else h.size r := fun r => by
      rw [← hh₂, Heap.size_setSize, ← hh₁, Heap.size_setSize]
    have hptr₂ : ∀ r, h₂.ptr r = h.ptr r := fun r => by
      rw [← hh₂, Heap.ptr_setSize, ← hh₁, Heap.ptr_setSize]
    have hpin : p ∈ l.toFinset ∪ live := by simp [hp]
    have hmout : m ∉ l.toFinset ∪ live := fun hmem =>
      hplt.ne (hb.tiles.unique hpin hmem ⟨hplt.le, hmlt⟩ ⟨le_rfl, hb.tiles.pos m hmem⟩)
    have hmlist : m ∉ base :: l := fun hmem => by
      rcases List.mem_cons.mp hmem with rfl | hmem
      · omega
      · exact hmout (by simp [hmem])
    have hmlive : m ∉ live := fun hmem => hmout (by simp [hmem])
    have hstop : ∀ r, r ≠ p → r ≠ m → h₂.next r = h.next r := fun r hrp hrm => by
      rw [hnext₂, if_neg hrm, hnext₁, if_neg hrp]
    have hstopp : h₂.next p = m := by
      rw [hnext₂, if_neg hplt.ne, hm]
    refine ⟨m, rfl, hmlive, ?_, ⟨l, ⟨⟨?_, ?_, ?_, prevp, hprevp, rfl⟩, ?_, fun r hr => ?_,
      hb.above⟩⟩, fun r hr => ?_⟩
    · show h₂.size m = nunits
      rw [hsize₂, if_pos rfl]
    · show Cycle h₂.ptr (base :: l)
      rw [cycle_cons]
      exact hpath.congr fun r _ => hptr₂ r
    · refine hlist.spaced.imp_of_mem fun {r t} hr _ hrt => ?_
      show h₂.next r < t
      have hrm : r ≠ m := fun heq' => hmlist (heq' ▸ hr)
      by_cases hrp : r = p
      · rw [hrp, hstopp]
        rw [hrp] at hrt
        exact hmlt.trans hrt
      · rwa [hstop r hrp hrm]
    · show h₂.size base = 0
      have hbasem : base ≠ m := fun heq' => hmlist (heq' ▸ List.mem_cons_self)
      rw [hsize₂, if_neg hbasem, if_neg hbasep.ne, hlist.base_size]
    · have htiles : Tiles h₂.next (insert m (l.toFinset ∪ live)) memory :=
        hb.tiles.split hpin hplt hmlt hstopp (by rw [hnext₂, if_pos rfl, hend]) fun r hr hrp =>
          hstop r hrp fun heq' => hmout (heq' ▸ hr)
      show Tiles h₂.next _ _
      rwa [Finset.union_insert]
    · rcases Finset.mem_insert.mp hr with rfl | hr
      · exact fun hmem => hmlist (List.mem_cons_of_mem base hmem)
      · exact hb.apart r hr
    · show h₂.size r = h.size r
      have hrm : r ≠ m := fun heq' => hmlive (heq' ▸ hr)
      have hrp : r ≠ p := fun heq' => hplive (heq' ▸ hr)
      rw [hsize₂, if_neg hrm, if_neg hrp]

/-! ## Once round the list -/

/-- The rest of the round of `malloc`'s loop that has come back to `freep`. -/
def askMore (sbrk : σ → ℕ → Option ℕ × σ) (nunits fuel : ℕ) (h : Heap) (s : σ) :
    Option (Option ℕ × Heap × σ) :=
  match morecore sbrk fuel nunits h s with
  | none => none
  | some (none, h, s) => some (none, h, s)
  | some (some p, h, s) => search sbrk nunits fuel p (h.ptr p) h s

/-- A block of the list that is large enough, and the node before it. -/
structure Fits (base : ℕ) (h : Heap) (l : List ℕ) (nunits prevp p : ℕ) : Prop where
  before : prevp ∈ base :: l
  ptr : h.ptr prevp = p
  mem : p ∈ l
  size : nunits ≤ h.size p

theorem search_path (sbrk : σ → ℕ → Option ℕ × σ) (s : σ)
    (hb : Blocks base h l live memory) (hfreep : h.freep = some freep)
    (hpath : Path h.ptr (prevp :: ps) freep) (hmem : ∀ r ∈ freep :: prevp :: ps, r ∈ base :: l)
    (hout : freep ∉ ps) (hpos : 0 < nunits) :
    (∃ prev q, Fits base h l nunits prev q ∧ ∀ fuel, ps.length < fuel →
      search sbrk nunits fuel prevp (h.ptr prevp) h s =
        some (some (take nunits prev q h).1, (take nunits prev q h).2, s)) ∨
    (∀ q ∈ freep :: ps, h.size q < nunits) ∧ ∀ fuel,
      search sbrk nunits (ps.length + (fuel + 1)) prevp (h.ptr prevp) h s =
        askMore sbrk nunits fuel h s := by
  have hfits : ∀ q ∈ base :: l, nunits ≤ h.size q → q ∈ l := fun q hq hle => by
    rcases List.mem_cons.mp hq with rfl | hq
    · rw [hb.list.base_size] at hle
      omega
    · exact hq
  have hprevp := hmem prevp (by simp)
  induction ps generalizing prevp with
  | nil =>
      rw [path_cons, start_nil] at hpath
      have hptr := hpath.1
      by_cases hle : nunits ≤ h.size freep
      · refine Or.inl ⟨prevp, freep,
          ⟨hprevp, hptr, hfits freep (hmem freep (by simp)) hle, hle⟩, fun fuel hfuel => ?_⟩
        obtain ⟨fuel, rfl⟩ := Nat.exists_eq_succ_of_ne_zero hfuel.ne'
        rw [search, hptr, if_pos hle]
      · refine Or.inr ⟨fun q hq => ?_, fun fuel => ?_⟩
        · rw [List.mem_singleton.mp hq]
          omega
        · rw [List.length_nil, Nat.zero_add, search, hptr, if_neg hle, if_pos hfreep]
          rfl
  | cons p ps ih =>
      rw [path_cons, start_cons] at hpath
      obtain ⟨hptr, hrest⟩ := hpath
      have hp := hmem p (by simp)
      by_cases hle : nunits ≤ h.size p
      · refine Or.inl ⟨prevp, p, ⟨hprevp, hptr, hfits p hp hle, hle⟩, fun fuel hfuel => ?_⟩
        obtain ⟨fuel, rfl⟩ := Nat.exists_eq_succ_of_ne_zero (Nat.zero_lt_of_lt hfuel).ne'
        rw [search, hptr, if_pos hle]
      · have hne : ¬ h.freep = some p := fun heq => by
          rw [hfreep] at heq
          exact hout (Option.some.inj heq ▸ List.mem_cons_self)
        have hstep : ∀ fuel, search sbrk nunits (fuel + 1) prevp p h s =
            search sbrk nunits fuel p (h.ptr p) h s := fun fuel => by
          rw [search, if_neg hle, if_neg hne]
        have hmem' : ∀ r ∈ freep :: p :: ps, r ∈ base :: l := fun r hr =>
          hmem r (by simp only [List.mem_cons] at hr ⊢; tauto)
        rw [hptr]
        rcases ih hrest hmem' (fun hin => hout (List.mem_cons_of_mem p hin)) hp with
          ⟨prev, q, hq, hrun⟩ | ⟨hsmall, hrun⟩
        · refine Or.inl ⟨prev, q, hq, fun fuel hfuel => ?_⟩
          rw [List.length_cons] at hfuel
          obtain ⟨fuel, rfl⟩ := Nat.exists_eq_succ_of_ne_zero (Nat.zero_lt_of_lt hfuel).ne'
          rw [hstep]
          exact hrun fuel (by omega)
        · refine Or.inr ⟨fun r hr => ?_, fun fuel => ?_⟩
          · rcases List.mem_cons.mp hr with rfl | hr
            · exact hsmall r List.mem_cons_self
            rcases List.mem_cons.mp hr with rfl | hr
            · omega
            · exact hsmall r (List.mem_cons_of_mem freep hr)
          · rw [List.length_cons, Nat.add_right_comm, hstep]
            exact hrun fuel

/-- From `freep` on, the loop finds a block or comes back to `freep`. -/
theorem Blocks.search (sbrk : σ → ℕ → Option ℕ × σ) (s : σ)
    (hb : Blocks base h l live memory) (hfreep : h.freep = some freep)
    (hpos : 0 < nunits) :
    (∃ q, ∃ h', Served base h live nunits h' memory q ∧ ∀ fuel, l.length < fuel →
      Umalloc.search sbrk nunits fuel freep (h.ptr freep) h s =
        some (some (q + HEADER), h', s)) ∨
    (∀ q ∈ l, h.size q < nunits) ∧ ∀ fuel,
      Umalloc.search sbrk nunits (l.length + (fuel + 1)) freep (h.ptr freep) h s =
        askMore sbrk nunits fuel h s := by
  obtain ⟨f, hf, hfeq⟩ := hb.list.freep
  obtain rfl : f = freep := Option.some.inj (hfeq.symm.trans hfreep)
  -- the list from `freep` on
  obtain ⟨pre, post, heq⟩ := List.append_of_mem hf
  have hcycle := hb.list.cycle
  have hnodup := hb.list.nodup
  rw [heq] at hcycle hnodup
  have hpath : Path h.ptr (f :: (post ++ pre)) f := cycle_cons.mp hcycle.rotate
  have hout : f ∉ post ++ pre := by
    rw [List.nodup_middle, List.nodup_cons] at hnodup
    simp only [List.mem_append] at hnodup ⊢
    tauto
  have hsame : ∀ r, r ∈ f :: (post ++ pre) ↔ r ∈ base :: l := fun r => by
    rw [heq]
    simp only [List.mem_cons, List.mem_append]
    tauto
  have hlength : (post ++ pre).length = l.length := by
    have hcount := congrArg List.length heq
    simp only [List.length_cons, List.length_append] at hcount ⊢
    omega
  have hmem : ∀ r ∈ f :: f :: (post ++ pre), r ∈ base :: l := fun r hr =>
    (hsame r).mp (by simpa using hr)
  rw [← hlength]
  rcases search_path sbrk s hb hfeq hpath hmem hout hpos with
    ⟨prev, q, hq, hrun⟩ | ⟨hsmall, hrun⟩
  · obtain ⟨r, hr, hserved⟩ := hb.take hq.before hq.ptr hq.mem hpos hq.size
    exact Or.inl ⟨r, _, hserved, fun fuel hfuel => by rw [hrun fuel hfuel, hr]⟩
  · exact Or.inr ⟨fun q hq => hsmall q ((hsame q).mpr (List.mem_cons_of_mem base hq)), hrun⟩

/-! ## More memory -/

/-- Memory that `sbrk` returns lies above all earlier memory and above the header `base`. -/
structure Fresh (base : ℕ) (memory : Set ℕ) (p : ℕ) : Prop where
  above : ∀ x ∈ memory, x < p
  base : base + HEADER ≤ p

theorem moreUnits_pos (nu : ℕ) : 0 < moreUnits nu := by
  unfold moreUnits
  split <;> omega

theorem le_moreUnits (nu : ℕ) : nu ≤ moreUnits nu := by
  unfold moreUnits
  split <;> omega

/-- The new block counts as one in use until it is freed. -/
theorem Blocks.grow (hb : Blocks base h l live memory) (hp : Fresh base memory p)
    (hpos : 0 < nunits) :
    Blocks base (h.setSize p nunits) l (insert p live)
      (memory ∪ Set.Ico p (p + HEADER * nunits)) := by
  have hstart : ∀ r, r ∈ l ∨ r ∈ live → r < p := fun r hr =>
    hp.above r (hb.tiles.start_mem (by simpa using hr))
  have hne : ∀ r, r ∈ l ∨ r ∈ live → r ≠ p := fun r hr => (hstart r hr).ne
  have hbase : base ≠ p := by
    have hle := hp.base
    unfold HEADER at hle
    omega
  have hnext : ∀ r, r ≠ p → (h.setSize p nunits).next r = h.next r := fun r hr => by
    rw [Heap.next_setSize, if_neg hr]
  have hlist : ∀ r ∈ base :: l, r ≠ p := fun r hr => by
    rcases List.mem_cons.mp hr with rfl | hr
    · exact hbase
    · exact hne r (Or.inl hr)
  refine ⟨⟨?_, ?_, ?_, hb.list.freep⟩, ?_, fun r hr hmem => ?_, fun x hx => ?_⟩
  · have hpath : Path h.ptr (base :: l) base := cycle_cons.mp hb.list.cycle
    exact cycle_cons.mpr (hpath.congr fun r _ => Heap.ptr_setSize _ _ _ _)
  · refine hb.list.spaced.imp_of_mem fun {r t} hr _ hlt => ?_
    rwa [hnext r (hlist r hr)]
  · rw [Heap.size_setSize, if_neg hbase, hb.list.base_size]
  · rw [Finset.union_insert]
    refine hb.tiles.add hp.above ?_ ?_ fun r hr => hnext r (hne r (by simpa using hr))
    · unfold HEADER
      omega
    · rw [Heap.next_setSize, if_pos rfl]
  · rcases Finset.mem_insert.mp hr with rfl | hr
    · exact hne r (Or.inl hmem) rfl
    · exact hb.apart r hr hmem
  · rcases hx with hx | hx
    · exact hb.above x hx
    · exact hp.base.trans hx.1

theorem askMore_none (hsbrk : sbrk s (uint (moreUnits nunits * HEADER)) = (none, s'))
    (fuel : ℕ) : askMore sbrk nunits fuel h s = some (none, h, s') := by
  rw [askMore, morecore, hsbrk]

/-- After `morecore` the loop finds a block. -/
theorem Blocks.askMore (hb : Blocks base h l live memory) (hpos : 0 < nunits)
    (hsbrk : sbrk s (uint (moreUnits nunits * HEADER)) = (some p, s'))
    (hp : Fresh base memory p) :
    ∃ q h' n, Served base h live nunits h'
      (memory ∪ Set.Ico p (p + HEADER * moreUnits nunits)) q ∧
      ∀ fuel, n ≤ fuel →
        Umalloc.askMore sbrk nunits fuel h s = some (some (q + HEADER), h', s') := by
  have hplive : p ∉ live := fun hmem =>
    lt_irrefl p (hp.above p (hb.tiles.start_mem (by simp [hmem])))
  have hgrown := hb.grow hp (moreUnits_pos nunits)
  obtain ⟨h₁, l₁, hfree, hb₁, ⟨r, hr, hrp, hrnext⟩, hsizes⟩ := hgrown.free hplive
  obtain ⟨f, hf, hfreep⟩ := hb₁.list.freep
  -- the block that contains the new memory is large enough
  have hlarge : r ∈ l₁ ∧ nunits ≤ h₁.size r := by
    have hpnext : (h.setSize p (moreUnits nunits)).next p = p + HEADER * moreUnits nunits := by
      rw [Heap.next_setSize, if_pos rfl]
    have hmore := moreUnits_pos nunits
    have hle := le_moreUnits nunits
    rw [hpnext, Heap.next] at hrnext
    unfold HEADER at hrnext
    refine ⟨(List.mem_cons.mp hr).resolve_left ?_, by omega⟩
    rintro rfl
    rw [hb₁.list.base_size] at hrnext
    omega
  have hmore : ∀ fuel, l.length < fuel → Umalloc.askMore sbrk nunits fuel h s =
      Umalloc.search sbrk nunits fuel f (h₁.ptr f) h₁ s' := fun fuel hfuel => by
    simp only [Umalloc.askMore, morecore, hsbrk, hfree fuel hfuel, Option.bind_eq_bind,
      Option.bind_some, hfreep]
  rcases hb₁.search sbrk s' hfreep hpos with ⟨q, h', hserved, hrun⟩ | ⟨hsmall, -⟩
  · refine ⟨q, h', max (l.length + 1) (l₁.length + 1), ?_, fun fuel hfuel => ?_⟩
    · refine ⟨hserved.new, hserved.size, hserved.blocks, fun t ht => ?_⟩
      have hne : t ≠ p := fun heq => hplive (heq ▸ ht)
      rw [hserved.others t ht, hsizes t ht, Heap.size_setSize, if_neg hne]
    · rw [hmore fuel (by omega), hrun fuel (by omega)]
  · exact absurd (hsmall r hlarge.1) (not_lt.mpr hlarge.2)

/-! ## A call -/

/-- Between two calls: the free list is as it should be, or there is none yet. -/
def Ready (base : ℕ) (h : Heap) (l : List ℕ) (live : Finset ℕ) (memory : Set ℕ) : Prop :=
  Blocks base h l live memory ∨ h.freep = none ∧ l = [] ∧ live = ∅ ∧ memory = ∅

/-- The first call makes a list that consists of `base`. -/
theorem blocks_start (base : ℕ) (h : Heap) : Blocks base
    { (h.setPtr base base).setSize base 0 with freep := some base } [] ∅ ∅ where
  list :=
    { cycle := by
        rw [cycle_cons, path_cons, start_nil]
        refine ⟨?_, path_nil⟩
        show ((h.setPtr base base).setSize base 0).ptr base = base
        rw [Heap.ptr_setSize, Heap.ptr_setPtr, if_pos rfl]
      spaced := List.pairwise_singleton _ _
      base_size := by
        show ((h.setPtr base base).setSize base 0).size base = 0
        rw [Heap.size_setSize, if_pos rfl]
      freep := ⟨base, List.mem_cons_self, rfl⟩ }
  tiles := by simpa using Tiles.empty
  apart p hp := by simp at hp
  above x hx := hx.elim

theorem units_pos (nbytes : ℕ) : 0 < units nbytes := Nat.succ_pos _

/-- `malloc` finds a block, or none is large enough and it asks for more memory. -/
theorem Ready.malloc (sbrk : σ → ℕ → Option ℕ × σ) (s : σ) (nbytes : ℕ)
    (hready : Ready base h l live memory) :
    (∃ q h' n, Served base h live (units nbytes) h' memory q ∧ ∀ fuel, n ≤ fuel →
      Umalloc.malloc sbrk base fuel nbytes h s = some (some (q + HEADER), h', s)) ∨
    (∀ q ∈ l, h.size q < units nbytes) ∧ ∃ h₁ n, Blocks base h₁ l live memory ∧
      (∀ r ∈ live, h₁.size r = h.size r) ∧ ∀ fuel,
        Umalloc.malloc sbrk base (n + fuel) nbytes h s = askMore sbrk (units nbytes) fuel h₁ s := by
  rcases hready with hb | ⟨hfreep, rfl, rfl, rfl⟩
  · obtain ⟨f, hf, hfreep⟩ := hb.list.freep
    have hrun : ∀ fuel, Umalloc.malloc sbrk base fuel nbytes h s =
        Umalloc.search sbrk (units nbytes) fuel f (h.ptr f) h s := fun fuel => by
      rw [Umalloc.malloc, hfreep]
    rcases hb.search sbrk s hfreep (units_pos nbytes) with
      ⟨q, h', hserved, hsearch⟩ | ⟨hsmall, hsearch⟩
    · exact Or.inl ⟨q, h', l.length + 1, hserved, fun fuel hfuel => by
        rw [hrun, hsearch fuel hfuel]⟩
    · exact Or.inr ⟨hsmall, h, l.length + 1, hb, fun _ _ => rfl, fun fuel => by
        rw [hrun, Nat.add_assoc, Nat.add_comm 1, hsearch fuel]⟩
  · have hb := blocks_start base h
    have hrun : ∀ fuel, Umalloc.malloc sbrk base fuel nbytes h s = Umalloc.search sbrk
        (units nbytes) fuel base _ { (h.setPtr base base).setSize base 0 with freep := some base }
        s := fun fuel => by
      rw [Umalloc.malloc, hfreep]
    refine Or.inr ⟨fun q hq => by simp at hq, _, 1, hb, fun r hr => by simp at hr, fun fuel => ?_⟩
    rcases hb.search sbrk s rfl (units_pos nbytes) with
      ⟨q, h', hserved, hsearch⟩ | ⟨-, hsearch⟩
    · -- without memory there is no block
      obtain ⟨l', hb'⟩ := hserved.blocks
      exact absurd (hb'.tiles.start_mem (by simp : q ∈ _)) (Set.notMem_empty q)
    · rw [hrun, Nat.add_comm 1, ← hsearch fuel, List.length_nil, Nat.zero_add]

/-- How a call of `malloc` ends: with a block that was there, without memory, or with a block of
the memory that has been added. -/
theorem Ready.malloc_returns (hready : Ready base h l live memory)
    (hfresh : ∀ p s', sbrk s (uint (moreUnits (units nbytes) * HEADER)) = (some p, s') →
      Fresh base memory p) :
    (∃ q h', Returns (fun fuel => Umalloc.malloc sbrk base fuel nbytes h s)
      (some (q + HEADER), h', s) ∧ Served base h live (units nbytes) h' memory q) ∨
    (∃ h' s', Returns (fun fuel => Umalloc.malloc sbrk base fuel nbytes h s) (none, h', s') ∧
      sbrk s (uint (moreUnits (units nbytes) * HEADER)) = (none, s') ∧
      Blocks base h' l live memory) ∨
    ∃ q h' p s', Returns (fun fuel => Umalloc.malloc sbrk base fuel nbytes h s)
      (some (q + HEADER), h', s') ∧
      sbrk s (uint (moreUnits (units nbytes) * HEADER)) = (some p, s') ∧
      Served base h live (units nbytes) h'
        (memory ∪ Set.Ico p (p + HEADER * moreUnits (units nbytes))) q := by
  rcases hready.malloc sbrk s nbytes with
    ⟨q, h', n, hserved, hrun⟩ | ⟨-, h₁, n, hb, hsizes, hrun⟩
  · exact Or.inl ⟨q, h', ⟨n, hrun⟩, hserved⟩
  obtain ⟨⟨answer, s'⟩, hsbrk⟩ :
      ∃ x, sbrk s (uint (moreUnits (units nbytes) * HEADER)) = x := ⟨_, rfl⟩
  cases answer with
  | none =>
      refine Or.inr (Or.inl ⟨h₁, s', ⟨n, fun fuel hfuel => ?_⟩, hsbrk, hb⟩)
      obtain ⟨fuel, rfl⟩ := Nat.exists_eq_add_of_le hfuel
      exact (hrun fuel).trans (askMore_none hsbrk fuel)
  | some p =>
      obtain ⟨q, h', n', hserved, hmore⟩ := hb.askMore (units_pos nbytes) hsbrk (hfresh p s' hsbrk)
      refine Or.inr (Or.inr ⟨q, h', p, s', ⟨n + n', fun fuel hfuel => ?_⟩, hsbrk, hserved.new,
        hserved.size, hserved.blocks, fun r hr => (hserved.others r hr).trans (hsizes r hr)⟩)
      obtain ⟨k, rfl⟩ := Nat.exists_eq_add_of_le hfuel
      rw [Nat.add_assoc]
      exact (hrun (n' + k)).trans (hmore _ (Nat.le_add_right _ _))

end Xv6.Umalloc
