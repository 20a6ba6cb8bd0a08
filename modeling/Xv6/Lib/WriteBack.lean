import Mathlib.Data.Set.Insert
import Mathlib.Logic.Function.Basic

/-!
# Caches that write back

Lines of a cache hold copies of the values of a store.  What a user writes goes to a line first and
to the store later, so for each key there are two values: the one in the store, and the one that was
written last, `content`.  `Coherent` says that a valid line has the latter, and that the store has
it as well unless there is a line from which it is still to be written: a dirty one, or one of those
in `ahead`, which somebody is just working on.

There is one rule for each thing that can be done to a line: it is used for another key (`refill`),
filled from the store (`fetch`), written (`write`), or written back (`sync`).  A key has at most one
line.
-/

namespace WriteBack

universe u v w

structure Line (κ : Type u) (β : Type v) where
  key : κ
  valid : Bool
  dirty : Bool
  data : β

section Rules

variable {ι : Type w} {κ : Type u} {β : Type v} {K : Set κ} {line line' : ι → Line κ β}
variable {store store' content content' : κ → β} {ahead ahead' : Set ι} {i : ι}

/-- The cache is kept for the keys in `K`. -/
structure Coherent (K : Set κ) (line : ι → Line κ β) (store content : κ → β) (ahead : Set ι) :
    Prop where
  unique : ∀ i j, (line i).key ∈ K → (line i).key = (line j).key → i = j
  data : ∀ i, (line i).key ∈ K → (line i).valid = true → (line i).data = content (line i).key
  stale : ∀ k ∈ K, store k ≠ content k →
    ∃ i, (line i).key = k ∧ (line i).valid = true ∧ ((line i).dirty = true ∨ i ∈ ahead)

namespace Coherent

variable (h : Coherent K line store content ahead)
include h

theorem mono (hahead : ahead ⊆ ahead') : Coherent K line store content ahead' := by
  refine ⟨h.unique, h.data, fun k hk hne => ?_⟩
  obtain ⟨j, hkey, hvalid, hdirty⟩ := h.stale k hk hne
  exact ⟨j, hkey, hvalid, hdirty.imp_right fun hj => hahead hj⟩

/-- A line that is not valid is not ahead of the store. -/
theorem store_eq (hkey : (line i).key ∈ K) (hvalid : (line i).valid = false) :
    store (line i).key = content (line i).key := by
  by_contra hne
  obtain ⟨j, hj, hvalidj, -⟩ := h.stale _ hkey hne
  obtain rfl : i = j := h.unique i j hkey hj.symm
  rw [hvalid] at hvalidj
  cases hvalidj

/-- The keys of the lines and the contents do not change. -/
theorem keys (hline : ∀ j, (line' j).key = (line j).key) (i j : ι) (hi : (line' i).key ∈ K)
    (hij : (line' i).key = (line' j).key) : i = j := by
  rw [hline, hline] at hij
  rw [hline] at hi
  exact h.unique i j hi hij

/-- A clean line that nobody works on is used for a key that has no line. -/
theorem refill (hline : ∀ j, j ≠ i → line' j = line j) (hvalid : (line' i).valid = false)
    (hfresh : (line' i).key ∈ K → ∀ j, (line j).key ≠ (line' i).key)
    (hdirty : (line i).dirty = false) (hahead : i ∉ ahead) :
    Coherent K line' store content ahead := by
  refine ⟨fun j j' hj hjj' => ?_, fun j hkey hvalidj => ?_, fun k hk hne => ?_⟩
  · by_cases hi : j = i
    · subst hi
      by_contra hne
      rw [hline j' (Ne.symm hne)] at hjj'
      exact hfresh hj j' hjj'.symm
    · by_cases hi' : j' = i
      · subst hi'
        rw [hline j hi] at hj hjj'
        exact absurd hjj' (hfresh (hjj' ▸ hj) j)
      · rw [hline j hi] at hj hjj'
        rw [hline j' hi'] at hjj'
        exact h.unique j j' hj hjj'
  · have hi : j ≠ i := by
      rintro rfl
      rw [hvalid] at hvalidj
      cases hvalidj
    rw [hline j hi] at hkey hvalidj ⊢
    exact h.data j hkey hvalidj
  · obtain ⟨j, hkey, hvalidj, hcause⟩ := h.stale k hk hne
    have hi : j ≠ i := by
      rintro rfl
      rcases hcause with hcause | hcause
      · rw [hdirty] at hcause
        cases hcause
      · exact hahead hcause
    exact ⟨j, by rw [hline j hi]; exact ⟨hkey, hvalidj, hcause⟩⟩

/-- A line that is not valid is filled from the store. -/
theorem fetch (hline : ∀ j, j ≠ i → line' j = line j) (hkey : (line' i).key = (line i).key)
    (hvalid : (line i).valid = false) (hdata : (line' i).data = store (line i).key) :
    Coherent K line' store content ahead := by
  have hkeys : ∀ j, (line' j).key = (line j).key := fun j => by
    by_cases hj : j = i
    · rw [hj, hkey]
    · rw [hline j hj]
  refine ⟨h.keys hkeys, fun j hj hvalidj => ?_, fun k hk hne => ?_⟩
  · by_cases hi : j = i
    · subst hi
      rw [hkeys] at hj
      rw [hdata, hkeys, h.store_eq hj hvalid]
    · rw [hline j hi] at hj hvalidj ⊢
      exact h.data j hj hvalidj
  · obtain ⟨j, hj, hvalidj, hcause⟩ := h.stale k hk hne
    have hi : j ≠ i := by
      rintro rfl
      rw [hvalid] at hvalidj
      cases hvalidj
    exact ⟨j, by rw [hline j hi]; exact ⟨hj, hvalidj, hcause⟩⟩

/-- A valid line is written, and is ahead of the store from then on. -/
theorem write (hline : ∀ j, j ≠ i → line' j = line j) (hkey : (line' i).key = (line i).key)
    (hvalid : (line' i).valid = true) (hself : content' (line i).key = (line' i).data)
    (hcontent : ∀ k ∈ K, k ≠ (line i).key → content' k = content k)
    (hahead : ∀ j ∈ ahead, j ≠ i → j ∈ ahead') (hi : (line' i).dirty = true ∨ i ∈ ahead') :
    Coherent K line' store content' ahead' := by
  have hkeys : ∀ j, (line' j).key = (line j).key := fun j => by
    by_cases hj : j = i
    · rw [hj, hkey]
    · rw [hline j hj]
  refine ⟨h.keys hkeys, fun j hj hvalidj => ?_, fun k hk hne => ?_⟩
  · by_cases hji : j = i
    · subst hji
      rw [hkey, hself]
    · rw [hline j hji] at hj hvalidj ⊢
      have hother : (line j).key ≠ (line i).key := fun heq => hji (h.unique j i hj heq)
      rw [hcontent _ hj hother]
      exact h.data j hj hvalidj
  · by_cases hki : k = (line i).key
    · exact ⟨i, hkey.trans hki.symm, hvalid, hi⟩
    · rw [hcontent k hk hki] at hne
      obtain ⟨j, hj, hvalidj, hcause⟩ := h.stale k hk hne
      have hji : j ≠ i := by
        rintro rfl
        exact hki hj.symm
      have hcause' := hcause.imp_right fun hmem => hahead j hmem hji
      exact ⟨j, by rw [hline j hji]; exact ⟨hj, hvalidj, hcause'⟩⟩

/-- The value of a valid line is written to the store. -/
theorem sync (hline : ∀ j, j ≠ i → line' j = line j) (hkey : (line' i).key = (line i).key)
    (hvalid : (line i).valid = true) (hdata : (line' i).data = (line i).data)
    (hself : store' (line i).key = (line i).data)
    (hstore : ∀ k ∈ K, k ≠ (line i).key → store' k = store k)
    (hahead : ∀ j ∈ ahead, j ≠ i → j ∈ ahead') : Coherent K line' store' content ahead' := by
  have hkeys : ∀ j, (line' j).key = (line j).key := fun j => by
    by_cases hj : j = i
    · rw [hj, hkey]
    · rw [hline j hj]
  refine ⟨h.keys hkeys, fun j hj hvalidj => ?_, fun k hk hne => ?_⟩
  · by_cases hji : j = i
    · subst hji
      rw [hkeys] at hj
      rw [hdata, hkeys]
      exact h.data j hj hvalid
    · rw [hline j hji] at hj hvalidj ⊢
      exact h.data j hj hvalidj
  · have hki : k ≠ (line i).key := by
      rintro rfl
      exact hne (hself.trans (h.data i hk hvalid))
    rw [hstore k hk hki] at hne
    obtain ⟨j, hj, hvalidj, hcause⟩ := h.stale k hk hne
    have hji : j ≠ i := by
      rintro rfl
      exact hki hj.symm
    have hcause' := hcause.imp_right fun hmem => hahead j hmem hji
    exact ⟨j, by rw [hline j hji]; exact ⟨hj, hvalidj, hcause'⟩⟩

end Coherent

end Rules

end WriteBack
