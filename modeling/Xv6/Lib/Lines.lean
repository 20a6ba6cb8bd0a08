import Mathlib.Algebra.Order.Ring.Nat
import Mathlib.Data.List.Basic
import Mathlib.Data.Nat.Init

/-!
# Terminated lines

A text is cut at a terminator: its lines are the pieces that are followed by one.  What
follows the last terminator is no line.
-/

namespace Lines

variable {α : Type} [DecidableEq α] {sep : α} {s line rest : List α}

/-- The terminated lines, without their terminators. -/
def lines (sep : α) (s : List α) : List (List α) := (s.splitOn sep).dropLast

theorem lines_of_not_mem (h : sep ∉ s) : lines sep s = [] := by
  rw [lines, List.splitOn_eq_singleton h]
  rfl

theorem lines_cons (h : sep ∉ line) (rest : List α) :
    lines sep (line ++ sep :: rest) = line :: lines sep rest := by
  rw [lines, List.splitOn_append_cons_self_of_not_mem h,
    List.dropLast_cons_of_ne_nil (List.splitOn_ne_nil sep rest), lines]

theorem lines_append (h : sep ∉ line) (s rest : List α) :
    lines sep (line ++ sep :: s ++ rest) = line :: lines sep (s ++ rest) := by
  rw [List.append_assoc, List.cons_append, lines_cons h]

omit [DecidableEq α] in
/-- A text is cut at its first terminator. -/
theorem exists_line (h : sep ∈ s) : ∃ line rest, s = line ++ sep :: rest ∧ sep ∉ line :=
  List.eq_append_cons_of_mem h

/-- From one line to the next. -/
theorem line_induction {motive : List α → Prop} (hlast : ∀ s, sep ∉ s → motive s)
    (hline : ∀ line rest, sep ∉ line → motive rest → motive (line ++ sep :: rest))
    (s : List α) : motive s := by
  induction hlen : s.length using Nat.strong_induction_on generalizing s with
  | _ len ih =>
  by_cases hmem : sep ∈ s
  · obtain ⟨line, rest, rfl, hnot⟩ := exists_line hmem
    refine hline line rest hnot (ih rest.length ?_ rest rfl)
    rw [← hlen, List.length_append, List.length_cons]
    omega
  · exact hlast s hmem

/-! ## How far the lines reach -/

/-- The length of the text up to its last terminator. -/
def terminated (sep : α) (s : List α) : ℕ := ((lines sep s).map fun line => line.length + 1).sum

theorem terminated_of_not_mem (h : sep ∉ s) : terminated sep s = 0 := by
  rw [terminated, lines_of_not_mem h]
  rfl

theorem terminated_append (h : sep ∉ line) (s rest : List α) :
    terminated sep (line ++ sep :: s ++ rest) = line.length + 1 + terminated sep (s ++ rest) := by
  rw [terminated, lines_append h, List.map_cons, List.sum_cons, terminated]

/-- All of `s` is before a terminator of `rest`. -/
theorem terminated_append_of_mem (h : sep ∈ rest) (s : List α) :
    terminated sep (s ++ rest) = s.length + terminated sep rest := by
  induction s using @line_induction _ _ sep with
  | hlast s hs =>
      obtain ⟨line, rest, rfl, hline⟩ := exists_line h
      have hnot : sep ∉ s ++ line := fun hmem => (List.mem_append.mp hmem).elim hs hline
      have hall := terminated_append hnot [] rest
      have htail := terminated_append hline [] rest
      simp only [List.append_assoc, List.cons_append, List.nil_append, List.length_append]
        at hall htail
      omega
  | hline line s hline ih =>
      rw [terminated_append hline, ih, List.length_append, List.length_cons]
      omega

end Lines
