import Mathlib.Data.List.Basic
import Mathlib.Logic.Function.Basic

/-!
# A finite map kept in slots

The entries of the map are in a list, in no order, and removed entries leave holes.  A new
entry goes into the first hole, and the list grows only if there is none.

If no two slots have the same key, then `lookup`, `put` and `clear` are those of a map.
-/

namespace Slots

variable {κ α : Type} [DecidableEq κ] {l : List (Option (κ × α))} {k k' : κ} {a a' : α} {i j : ℕ}

/-- Whether a slot has this key. -/
def hasKey (k : κ) : Option (κ × α) → Bool
  | none => false
  | some (k', _) => k' = k

/-- The first slot with this key, if there is one, and the length otherwise. -/
def index (l : List (Option (κ × α))) (k : κ) : ℕ := l.findIdx (hasKey k)

def lookup (l : List (Option (κ × α))) (k : κ) : Option α := (l[index l k]?.join).map Prod.snd

/-- The first hole, and the length if there is none. -/
def hole (l : List (Option (κ × α))) : ℕ := l.findIdx Option.isNone

def put (l : List (Option (κ × α))) (k : κ) (a : α) : List (Option (κ × α)) :=
  l.take (hole l) ++ some (k, a) :: l.drop (hole l + 1)

def clear (l : List (Option (κ × α))) (k : κ) : List (Option (κ × α)) := l.set (index l k) none

/-- No two slots have the same key. -/
def Distinct (l : List (Option (κ × α))) : Prop :=
  ∀ (i j : ℕ) k a a', l[i]? = some (some (k, a)) → l[j]? = some (some (k, a')) → i = j

theorem hasKey_iff {e : Option (κ × α)} : hasKey k e = true ↔ ∃ a, e = some (k, a) := by
  cases e with
  | none => simp [hasKey]
  | some entry =>
      obtain ⟨k', a⟩ := entry
      simp [hasKey]

theorem index_le : index l k ≤ l.length := List.findIdx_le_length

/-- At the index, there is the key. -/
theorem getElem?_index (h : index l k < l.length) : ∃ a, l[index l k]? = some (some (k, a)) := by
  have hkey := List.findIdx_getElem (w := h)
  obtain ⟨a, ha⟩ := hasKey_iff.mp hkey
  exact ⟨a, by rw [List.getElem?_eq_getElem h]; exact congrArg some ha⟩

theorem lookup_of_lt (h : index l k < l.length) : ∃ a, l[index l k]? = some (some (k, a)) ∧
    lookup l k = some a := by
  obtain ⟨a, ha⟩ := getElem?_index h
  exact ⟨a, ha, by simp [lookup, ha]⟩

theorem lookup_eq_none (h : ¬ index l k < l.length) : lookup l k = none := by
  have hnone : l[index l k]? = none := List.getElem?_eq_none (by omega)
  simp [lookup, hnone]

theorem lookup_eq_none_iff : lookup l k = none ↔ ¬ index l k < l.length := by
  refine ⟨fun h hlt => ?_, lookup_eq_none⟩
  obtain ⟨a, -, ha⟩ := lookup_of_lt hlt
  rw [ha] at h
  simp at h

/-- What is found is in a slot. -/
theorem lookup_eq_some (h : Distinct l) :
    lookup l k = some a ↔ ∃ i : ℕ, l[i]? = some (some (k, a)) := by
  constructor
  · intro hlookup
    have hlt : index l k < l.length := by
      by_contra hge
      rw [lookup_eq_none hge] at hlookup
      simp at hlookup
    obtain ⟨a', ha', hlookup'⟩ := lookup_of_lt hlt
    rw [hlookup] at hlookup'
    exact ⟨index l k, by rw [ha', Option.some.inj hlookup']⟩
  · intro ⟨i, hi⟩
    have hlen : i < l.length := (List.getElem?_eq_some_iff.mp hi).1
    have hlt : index l k < l.length := by
      refine List.findIdx_lt_length_of_exists ⟨some (k, a), ?_, by simp [hasKey]⟩
      exact List.mem_of_getElem? hi
    obtain ⟨a', ha', hlookup⟩ := lookup_of_lt hlt
    have hsame := h _ _ _ _ _ ha' hi
    rw [hsame, hi] at ha'
    rw [hlookup]
    simp at ha'
    rw [ha']

/-- Two lists are the same map if they have the same entries. -/
theorem lookup_ext {m : κ → Option α} (h : Distinct l)
    (hm : ∀ k a, m k = some a ↔ ∃ i : ℕ, l[i]? = some (some (k, a))) : lookup l = m := by
  funext k
  apply Option.ext
  intro a
  rw [lookup_eq_some h, hm]

/-! ## Changes -/

omit [DecidableEq κ] in
theorem hole_le : hole l ≤ l.length := List.findIdx_le_length

omit [DecidableEq κ] in
theorem hole_lt_iff : hole l < l.length ↔ none ∈ l := by
  rw [hole, List.findIdx_lt_length]
  constructor
  · intro ⟨e, he, hnone⟩
    exact Option.isNone_iff_eq_none.mp hnone ▸ he
  · intro hmem
    exact ⟨none, hmem, rfl⟩

omit [DecidableEq κ] in
/-- In the hole there is nothing. -/
theorem getElem?_hole (h : hole l < l.length) : l[hole l]? = some none := by
  have hnone := List.findIdx_getElem (w := h)
  rw [List.getElem?_eq_getElem h]
  exact congrArg some (Option.isNone_iff_eq_none.mp hnone)

omit [DecidableEq κ] in
/-- The list grows only if it is full. -/
theorem length_put : (put l k a).length = max l.length (hole l + 1) := by
  have hle := hole_le (l := l)
  simp [put]
  omega

omit [DecidableEq κ] in
theorem getElem?_put : (put l k a)[i]? = if i = hole l then some (some (k, a)) else l[i]? := by
  have hle := hole_le (l := l)
  have htake : (l.take (hole l)).length = hole l := by simp [hle]
  rw [put]
  rcases Nat.lt_trichotomy i (hole l) with hlt | heq | hgt
  · rw [if_neg (by omega), List.getElem?_append_left (by omega), List.getElem?_take_of_lt hlt]
  · rw [if_pos heq, List.getElem?_append_right (by omega), htake, heq, Nat.sub_self,
      List.getElem?_cons_zero]
  · rw [if_neg (by omega), List.getElem?_append_right (by omega), htake,
      show i - hole l = (i - hole l - 1) + 1 by omega, List.getElem?_cons_succ, List.getElem?_drop]
    congr 1
    omega

omit [DecidableEq κ] in
/-- A slot that is not a hole is not the first hole. -/
theorem ne_hole {e : κ × α} (h : l[i]? = some (some e)) : i ≠ hole l := by
  rintro rfl
  have hlt : hole l < l.length := (List.getElem?_eq_some_iff.mp h).1
  rw [getElem?_hole hlt] at h
  simp at h

theorem ne_key (hnew : lookup l k = none) (h : l[i]? = some (some (k', a'))) : k' ≠ k := by
  rintro rfl
  refine lookup_eq_none_iff.mp hnew ?_
  exact List.findIdx_lt_length_of_exists ⟨_, List.mem_of_getElem? h, by simp [hasKey]⟩

theorem Distinct.put (h : Distinct l) (hnew : lookup l k = none) : Distinct (put l k a) := by
  intro i j k' b b' hi hj
  rw [getElem?_put] at hi hj
  by_cases hi' : i = hole l
  · rw [if_pos hi'] at hi
    by_cases hj' : j = hole l
    · rw [hi', hj']
    · rw [if_neg hj'] at hj
      simp only [Option.some.injEq, Prod.mk.injEq] at hi
      exact absurd hi.1.symm (ne_key hnew hj)
  · rw [if_neg hi'] at hi
    by_cases hj' : j = hole l
    · rw [if_pos hj'] at hj
      simp only [Option.some.injEq, Prod.mk.injEq] at hj
      exact absurd hj.1.symm (ne_key hnew hi)
    · rw [if_neg hj'] at hj
      exact h i j k' b b' hi hj

/-- A new entry. -/
theorem lookup_put (h : Distinct l) (hnew : lookup l k = none) :
    lookup (put l k a) = Function.update (lookup l) k (some a) := by
  refine lookup_ext (h.put hnew) fun k' b => ?_
  by_cases hk : k' = k
  · subst hk
    rw [Function.update_self]
    constructor
    · intro hb
      exact ⟨hole l, by rw [getElem?_put, if_pos rfl, Option.some.inj hb]⟩
    · intro ⟨i, hi⟩
      rw [getElem?_put] at hi
      by_cases hi' : i = hole l
      · rw [if_pos hi'] at hi
        simp only [Option.some.injEq, Prod.mk.injEq] at hi
        rw [hi.2]
      · rw [if_neg hi'] at hi
        exact absurd rfl (ne_key hnew hi)
  · rw [Function.update_of_ne hk, lookup_eq_some h]
    constructor
    · intro ⟨i, hi⟩
      exact ⟨i, by rw [getElem?_put, if_neg (ne_hole hi), hi]⟩
    · intro ⟨i, hi⟩
      rw [getElem?_put] at hi
      by_cases hi' : i = hole l
      · rw [if_pos hi'] at hi
        simp only [Option.some.injEq, Prod.mk.injEq] at hi
        exact absurd hi.1.symm hk
      · rw [if_neg hi'] at hi
        exact ⟨i, hi⟩

theorem getElem?_clear (hlt : index l k < l.length) :
    (clear l k)[i]? = if i = index l k then some none else l[i]? := by
  rw [clear]
  by_cases heq : i = index l k
  · rw [if_pos heq, heq, List.getElem?_set_self hlt]
  · rw [if_neg heq, List.getElem?_set_ne (Ne.symm heq)]

theorem Distinct.clear (h : Distinct l) (hlt : index l k < l.length) : Distinct (clear l k) := by
  intro i j k' b b' hi hj
  rw [getElem?_clear hlt] at hi hj
  have hi' : i ≠ index l k := by
    rintro rfl
    simp at hi
  have hj' : j ≠ index l k := by
    rintro rfl
    simp at hj
  rw [if_neg hi'] at hi
  rw [if_neg hj'] at hj
  exact h i j k' b b' hi hj

/-- An entry is removed. -/
theorem lookup_clear (h : Distinct l) (hlt : index l k < l.length) :
    lookup (clear l k) = Function.update (lookup l) k none := by
  obtain ⟨c, hc⟩ := getElem?_index hlt
  refine lookup_ext (h.clear hlt) fun k' b => ?_
  have hother : (∃ i : ℕ, (Slots.clear l k)[i]? = some (some (k', b))) ↔
      ∃ i : ℕ, l[i]? = some (some (k', b)) ∧ i ≠ index l k := by
    constructor
    · intro ⟨i, hi⟩
      rw [getElem?_clear hlt] at hi
      have hne : i ≠ index l k := by
        rintro rfl
        simp at hi
      exact ⟨i, by rwa [if_neg hne] at hi, hne⟩
    · intro ⟨i, hi, hne⟩
      exact ⟨i, by rw [getElem?_clear hlt, if_neg hne, hi]⟩
  rw [hother]
  by_cases hk : k' = k
  · subst hk
    rw [Function.update_self]
    refine iff_of_false (by simp) ?_
    intro ⟨i, hi, hne⟩
    exact hne (h _ _ _ _ _ hi hc)
  · rw [Function.update_of_ne hk, lookup_eq_some h]
    constructor
    · intro ⟨i, hi⟩
      refine ⟨i, hi, ?_⟩
      rintro rfl
      rw [hc] at hi
      simp only [Option.some.injEq, Prod.mk.injEq] at hi
      exact hk hi.1.symm
    · intro ⟨i, hi, _⟩
      exact ⟨i, hi⟩

end Slots
