import Mathlib.Data.List.Basic

/-!
# The parts between separators

What is left of a list between its separators, where several separators are like one and those
at both ends do not count.  A program that reads the parts one after the other skips separators,
takes a part and skips separators again (`components_of_skip`).
-/

namespace Components

variable {α : Type} [DecidableEq α] {sep x : α} {l part rest : List α}

/-- The parts, from left to right. -/
def components (sep : α) (l : List α) : List (List α) := (l.splitOn sep).filter (· ≠ [])

@[simp] theorem components_nil : components sep [] = [] := by
  simp [components]

@[simp] theorem components_sep : components sep (sep :: l) = components sep l := by
  have hsplit : ([] ++ sep :: l).splitOn sep = [] :: l.splitOn sep :=
    List.splitOn_append_cons_self_of_not_mem List.not_mem_nil l
  rw [List.nil_append] at hsplit
  rw [components, hsplit, List.filter_cons_of_neg (by simp), components]

theorem components_single (hmem : sep ∉ part) (hne : part ≠ []) :
    components sep part = [part] := by
  rw [components, List.splitOn_eq_singleton hmem, List.filter_cons_of_pos (by simpa using hne),
    List.filter_nil]

theorem components_part (hmem : sep ∉ part) (hne : part ≠ []) :
    components sep (part ++ sep :: rest) = part :: components sep rest := by
  rw [components, List.splitOn_append_cons_self_of_not_mem hmem,
    List.filter_cons_of_pos (by simpa using hne), components]

theorem components_dropWhile :
    components sep (l.dropWhile (· = sep)) = components sep l := by
  induction l with
  | nil => rfl
  | cons x l ih =>
      by_cases hx : x = sep
      · rw [List.dropWhile_cons_of_pos (by simpa using hx), ih, hx, components_sep]
      · rw [List.dropWhile_cons_of_neg (by simpa using hx)]

/-- The first part, if there are no separators in front of it, and what comes after it. -/
theorem components_of_skip (hne : l ≠ []) (hhead : ∀ x ∈ l.head?, x ≠ sep) :
    components sep l = l.takeWhile (· ≠ sep) ::
      components sep ((l.dropWhile (· ≠ sep)).dropWhile (· = sep)) := by
  have hmem : sep ∉ l.takeWhile (· ≠ sep) := fun h => by
    have hall := List.all_eq_true.mp (List.all_takeWhile (p := (· ≠ sep)) (l := l)) sep h
    simp at hall
  have htake : l.takeWhile (· ≠ sep) ≠ [] := by
    obtain ⟨x, l, rfl⟩ := List.exists_cons_of_ne_nil hne
    rw [List.takeWhile_cons_of_pos (by simpa using hhead x rfl)]
    exact List.cons_ne_nil _ _
  have happend : l = l.takeWhile (· ≠ sep) ++ l.dropWhile (· ≠ sep) :=
    List.takeWhile_append_dropWhile.symm
  rw [components_dropWhile]
  cases hdrop : l.dropWhile (· ≠ sep) with
  | nil =>
      rw [hdrop, List.append_nil] at happend
      rw [components_nil, ← happend]
      exact components_single (happend ▸ hmem) hne
  | cons x rest =>
      have hx : x = sep := by
        have hhead := List.head?_dropWhile_not (· ≠ sep) l
        rw [hdrop] at hhead
        simpa using hhead
      subst hx
      rw [hdrop] at happend
      rw [components_sep, ← components_part hmem htake, ← happend]

/-- Nothing is left exactly if only separators were. -/
theorem dropWhile_eq_nil_iff : l.dropWhile (· = sep) = [] ↔ components sep l = [] := by
  induction l with
  | nil => simp
  | cons x l ih =>
      by_cases hx : x = sep
      · rw [List.dropWhile_cons_of_pos (by simpa using hx), ih, hx, components_sep]
      · rw [List.dropWhile_cons_of_neg (by simpa using hx),
          components_of_skip (List.cons_ne_nil _ _) (by simpa using hx)]
        simp

end Components
