import Mathlib.Data.Finset.Basic
import Mathlib.Data.Set.Lattice
import Mathlib.Order.CompletePartialOrder
import Mathlib.Order.Interval.Set.Basic

/-!
# Tilings

A range of a linear order is cut into blocks.  A block is its first element `p`, and
`stop p` is the first element after it.  `Tiles stop blocks region` says that the blocks
do not overlap, that none is empty, and that together they are the region.

Two blocks that touch can be joined (`Tiles.join`), a block can be cut in two
(`Tiles.split`), and a block can be added after all others (`Tiles.add`).
-/

namespace Tiling

variable {α : Type*} [LinearOrder α] {stop stop' : α → α} {blocks : Finset α} {region : Set α}
variable {p q m e : α}

structure Tiles (stop : α → α) (blocks : Finset α) (region : Set α) : Prop where
  pos : ∀ p ∈ blocks, p < stop p
  apart : ∀ p ∈ blocks, ∀ q ∈ blocks, p < q → stop p ≤ q
  cover : ∀ x, x ∈ region ↔ ∃ p ∈ blocks, x ∈ Set.Ico p (stop p)

namespace Tiles

theorem empty : Tiles stop ∅ ∅ where
  pos p hp := by simp at hp
  apart p hp := by simp at hp
  cover x := by simp

theorem congr (h : Tiles stop blocks region) (heq : ∀ p ∈ blocks, stop' p = stop p) :
    Tiles stop' blocks region where
  pos p hp := by
    rw [heq p hp]
    exact h.pos p hp
  apart p hp q hq hlt := by
    rw [heq p hp]
    exact h.apart p hp q hq hlt
  cover x := by
    rw [h.cover x]
    refine exists_congr fun p => and_congr_right fun hp => ?_
    rw [heq p hp]

/-- Every element of the region is in one block only. -/
theorem unique (h : Tiles stop blocks region) (hp : p ∈ blocks) (hq : q ∈ blocks) {x : α}
    (hxp : x ∈ Set.Ico p (stop p)) (hxq : x ∈ Set.Ico q (stop q)) : p = q := by
  rcases lt_trichotomy p q with hlt | heq | hlt
  · exact absurd hxp.2 (not_lt.mpr ((h.apart p hp q hq hlt).trans hxq.1))
  · exact heq
  · exact absurd hxq.2 (not_lt.mpr ((h.apart q hq p hp hlt).trans hxp.1))

/-- Different blocks have no element in common. -/
theorem disjoint (h : Tiles stop blocks region) (hp : p ∈ blocks) (hq : q ∈ blocks)
    (hne : p ≠ q) : Disjoint (Set.Ico p (stop p)) (Set.Ico q (stop q)) :=
  Set.disjoint_left.mpr fun _ hxp hxq => hne (h.unique hp hq hxp hxq)

theorem stop_le (h : Tiles stop blocks region) (hp : p ∈ blocks) (hq : q ∈ blocks)
    (hlt : p < stop q) (hne : p ≠ q) : stop p ≤ q := by
  rcases lt_trichotomy p q with hpq | heq | hqp
  · exact h.apart p hp q hq hpq
  · exact absurd heq hne
  · exact absurd hlt (not_lt.mpr (h.apart q hq p hp hqp))

theorem start_mem (h : Tiles stop blocks region) (hp : p ∈ blocks) : p ∈ region :=
  (h.cover p).mpr ⟨p, hp, le_rfl, h.pos p hp⟩

/-- Block `q` begins where block `p` stops, and becomes part of it. -/
theorem join (h : Tiles stop blocks region) (hp : p ∈ blocks) (hq : q ∈ blocks)
    (htouch : stop p = q) (hp' : stop' p = stop q)
    (hothers : ∀ r ∈ blocks, r ≠ p → r ≠ q → stop' r = stop r) :
    Tiles stop' (blocks.erase q) region := by
  have hpq : p < q := htouch ▸ h.pos p hp
  have hqpos := h.pos q hq
  refine ⟨fun r hr => ?_, fun r hr s hs hlt => ?_, fun x => ?_⟩
  · obtain ⟨hrq, hr⟩ := Finset.mem_erase.mp hr
    by_cases hrp : r = p
    · rw [hrp, hp']
      exact hpq.trans hqpos
    · rw [hothers r hr hrp hrq]
      exact h.pos r hr
  · obtain ⟨hrq, hr⟩ := Finset.mem_erase.mp hr
    obtain ⟨hsq, hs⟩ := Finset.mem_erase.mp hs
    by_cases hrp : r = p
    · rw [hrp] at hlt
      rw [hrp, hp']
      have hle := h.apart p hp s hs hlt
      rw [htouch] at hle
      exact h.apart q hq s hs (hle.lt_of_ne hsq.symm)
    · rw [hothers r hr hrp hrq]
      exact h.apart r hr s hs hlt
  · rw [h.cover x]
    constructor
    · rintro ⟨r, hr, hxr⟩
      by_cases hrq : r = q
      · rw [hrq] at hxr
        refine ⟨p, Finset.mem_erase.mpr ⟨hpq.ne, hp⟩, hpq.le.trans hxr.1, ?_⟩
        rw [hp']
        exact hxr.2
      · refine ⟨r, Finset.mem_erase.mpr ⟨hrq, hr⟩, hxr.1, ?_⟩
        by_cases hrp : r = p
        · rw [hrp] at hxr
          rw [hrp, hp']
          exact (htouch ▸ hxr.2).trans hqpos
        · rw [hothers r hr hrp hrq]
          exact hxr.2
    · rintro ⟨r, hr, hxr⟩
      obtain ⟨hrq, hr⟩ := Finset.mem_erase.mp hr
      by_cases hrp : r = p
      · rw [hrp, hp'] at hxr
        by_cases hxq : x < q
        · exact ⟨p, hp, hxr.1, htouch ▸ hxq⟩
        · exact ⟨q, hq, not_lt.mp hxq, hxr.2⟩
      · rw [hothers r hr hrp hrq] at hxr
        exact ⟨r, hr, hxr⟩

/-- Block `p` is cut at `m`. -/
theorem split (h : Tiles stop blocks region) (hp : p ∈ blocks) (hpm : p < m)
    (hm : m < stop p) (hp' : stop' p = m) (hm' : stop' m = stop p)
    (hothers : ∀ r ∈ blocks, r ≠ p → stop' r = stop r) :
    Tiles stop' (insert m blocks) region := by
  have hin : m ∉ blocks := fun hmem =>
    hpm.ne (h.unique hp hmem ⟨hpm.le, hm⟩ ⟨le_rfl, h.pos m hmem⟩)
  refine ⟨fun r hmem => ?_, fun r hmem s hmem' hlt => ?_, fun x => ?_⟩
  · rcases Finset.mem_insert.mp hmem with rfl | hr
    · rwa [hm']
    · by_cases hrp : r = p
      · rwa [hrp, hp']
      · rw [hothers r hr hrp]
        exact h.pos r hr
  · rcases Finset.mem_insert.mp hmem with rfl | hr
    · rcases Finset.mem_insert.mp hmem' with rfl | hs
      · exact absurd hlt (lt_irrefl _)
      · rw [hm']
        exact h.apart p hp s hs (hpm.trans hlt)
    · rcases Finset.mem_insert.mp hmem' with rfl | hs
      · by_cases hrp : r = p
        · rw [hrp, hp']
        · rw [hothers r hr hrp]
          exact (h.stop_le hr hp (hlt.trans hm) hrp).trans hpm.le
      · by_cases hrp : r = p
        · rw [hrp, hp']
          rw [hrp] at hlt
          exact hm.le.trans (h.apart p hp s hs hlt)
        · rw [hothers r hr hrp]
          exact h.apart r hr s hs hlt
  · rw [h.cover x]
    constructor
    · rintro ⟨r, hr, hxr⟩
      by_cases hrp : r = p
      · rw [hrp] at hxr
        by_cases hxm : x < m
        · exact ⟨p, Finset.mem_insert_of_mem hp, hxr.1, hp'.symm ▸ hxm⟩
        · exact ⟨m, Finset.mem_insert_self _ _, not_lt.mp hxm, hm'.symm ▸ hxr.2⟩
      · refine ⟨r, Finset.mem_insert_of_mem hr, hxr.1, ?_⟩
        rw [hothers r hr hrp]
        exact hxr.2
    · rintro ⟨r, hr, hxr⟩
      rcases Finset.mem_insert.mp hr with rfl | hr
      · rw [hm'] at hxr
        exact ⟨p, hp, hpm.le.trans hxr.1, hxr.2⟩
      · by_cases hrp : r = p
        · rw [hrp, hp'] at hxr
          exact ⟨p, hp, hxr.1, hxr.2.trans hm⟩
        · rw [hothers r hr hrp] at hxr
          exact ⟨r, hr, hxr⟩

/-- A block is added after all others. -/
theorem add (h : Tiles stop blocks region) (habove : ∀ x ∈ region, x < p) (hpos : p < e)
    (hp' : stop' p = e) (hothers : ∀ r ∈ blocks, stop' r = stop r) :
    Tiles stop' (insert p blocks) (region ∪ Set.Ico p e) := by
  have hstop : ∀ r ∈ blocks, stop r ≤ p := by
    intro r hr
    by_contra hlt
    have hin : p ∈ region := (h.cover p).mpr
      ⟨r, hr, (habove r (h.start_mem hr)).le, not_le.mp hlt⟩
    exact lt_irrefl p (habove p hin)
  refine ⟨fun r hmem => ?_, fun r hmem s hmem' hlt => ?_, fun x => ?_⟩
  · rcases Finset.mem_insert.mp hmem with rfl | hr
    · rwa [hp']
    · rw [hothers r hr]
      exact h.pos r hr
  · rcases Finset.mem_insert.mp hmem with rfl | hr
    · rcases Finset.mem_insert.mp hmem' with rfl | hs
      · exact absurd hlt (lt_irrefl _)
      · exact absurd hlt (not_lt.mpr (habove s (h.start_mem hs)).le)
    · rw [hothers r hr]
      rcases Finset.mem_insert.mp hmem' with rfl | hs
      · exact hstop r hr
      · exact h.apart r hr s hs hlt
  · rw [Set.mem_union, h.cover x]
    constructor
    · rintro (⟨r, hr, hxr⟩ | hx)
      · exact ⟨r, Finset.mem_insert_of_mem hr, (hothers r hr).symm ▸ hxr⟩
      · exact ⟨p, Finset.mem_insert_self _ _, hp'.symm ▸ hx⟩
    · rintro ⟨r, hr, hxr⟩
      rcases Finset.mem_insert.mp hr with rfl | hr
      · exact Or.inr (hp' ▸ hxr)
      · exact Or.inl ⟨r, hr, hothers r hr ▸ hxr⟩

end Tiles

end Tiling
