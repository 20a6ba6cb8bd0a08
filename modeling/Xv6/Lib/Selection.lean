import Mathlib.Data.Fintype.Card

/-!
# Selecting one by one

Elements are taken out of a collection one at a time, each time one that comes
before all that remain.  `Taken` relates what there was at first, the list of
what has been taken, and what remains; the list is in order, without duplicates
(`Taken.take`), and complete once nothing remains.
-/

namespace Selection

variable {ι : Type*} {le : ι → ι → Prop} {all rest rest' : ι → Prop} {taken : List ι} {i : ι}

structure Taken (le : ι → ι → Prop) (all : ι → Prop) (taken : List ι) (rest : ι → Prop) :
    Prop where
  nodup : taken.Nodup
  rest_iff : ∀ i, rest i ↔ all i ∧ i ∉ taken
  mem : ∀ i ∈ taken, all i
  sorted : taken.Pairwise le
  before : ∀ i ∈ taken, ∀ j, rest j → le i j

namespace Taken

theorem start (le : ι → ι → Prop) (all : ι → Prop) : Taken le all [] all where
  nodup := .nil
  rest_iff := by simp
  mem := by simp
  sorted := .nil
  before := by simp

theorem congr (h : Taken le all taken rest) (hrest : ∀ j, rest' j ↔ rest j) :
    Taken le all taken rest' where
  nodup := h.nodup
  rest_iff j := (hrest j).trans (h.rest_iff j)
  mem := h.mem
  sorted := h.sorted
  before i hi j hj := h.before i hi j ((hrest j).mp hj)

/-- The next one taken comes before all that remain. -/
theorem take (h : Taken le all taken rest) (hi : rest i)
    (hfirst : ∀ j, rest j → j ≠ i → le i j) (hrest : ∀ j, rest' j ↔ rest j ∧ j ≠ i) :
    Taken le all (taken ++ [i]) rest' where
  nodup := by
    refine h.nodup.append (List.nodup_singleton i) ?_
    rintro j hj hji
    obtain rfl := List.mem_singleton.mp hji
    exact ((h.rest_iff j).mp hi).2 hj
  rest_iff j := by
    rw [hrest, h.rest_iff]
    simp [and_assoc]
  mem j hj := by
    rcases List.mem_append.mp hj with hj | hj
    · exact h.mem j hj
    · obtain rfl := List.mem_singleton.mp hj
      exact ((h.rest_iff j).mp hi).1
  sorted := by
    refine List.pairwise_append.mpr ⟨h.sorted, List.pairwise_singleton _ _, ?_⟩
    intro j hj k hk
    obtain rfl := List.mem_singleton.mp hk
    exact h.before j hj k hi
  before j hj k hk := by
    obtain ⟨hk, hne⟩ := (hrest k).mp hk
    rcases List.mem_append.mp hj with hj | hj
    · exact h.before j hj k hk
    · obtain rfl := List.mem_singleton.mp hj
      exact hfirst k hk hne

/-- As long as something remains, not all have been taken. -/
theorem length_lt [Fintype ι] [DecidableEq ι] [DecidablePred all]
    (h : Taken le all taken rest) (hi : rest i) :
    taken.length < (Finset.univ.filter all).card := by
  obtain ⟨hall, hnot⟩ := (h.rest_iff i).mp hi
  rw [← List.toFinset_card_of_nodup h.nodup]
  refine Finset.card_lt_card ⟨fun j hj => ?_, fun hsub => hnot ?_⟩
  · simpa using h.mem j (List.mem_toFinset.mp hj)
  · exact List.mem_toFinset.mp (hsub (by simpa using hall))

end Taken

end Selection
