import Mathlib.Data.List.DropRight

/-!
# Words

The words of a text are the longest pieces without a blank.  `length_words_concat` says how many
there are when one more letter is read: only a letter that follows a blank begins a word.
-/

namespace Words

variable {α : Type} {blank : α → Bool} {l l' : List α} {x : α}

/-- The words, from left to right. -/
def words (blank : α → Bool) (l : List α) : List (List α) :=
  (l.splitOnP blank).filter (· ≠ [])

/-- The last letter belongs to a word. -/
def inWord (blank : α → Bool) (l : List α) : Bool := l.getLast?.any fun x => !blank x

@[simp] theorem words_nil : words blank [] = [] := by
  simp [words]

theorem words_append_blank (hx : blank x) :
    words blank (l ++ x :: l') = words blank l ++ words blank l' := by
  rw [words, List.splitOnP_append_cons l l' hx, List.filter_append, words, words]

theorem words_single (hl : ∀ x ∈ l, blank x = false) (hne : l ≠ []) : words blank l = [l] := by
  rw [words, List.splitOnP_eq_singleton hl, List.filter_cons_of_pos (by simpa using hne),
    List.filter_nil]

/-- What is before the last word, and the last word as far as it has been read. -/
theorem exists_tail (blank : α → Bool) (l : List α) : ∃ front word, l = front ++ word ∧
    (∀ x ∈ word, blank x = false) ∧ (front = [] ∨ ∃ init x, front = init ++ [x] ∧ blank x) := by
  refine ⟨l.rdropWhile fun x => !blank x, l.rtakeWhile fun x => !blank x, ?_, ?_, ?_⟩
  · exact (List.rdropWhile_append_rtakeWhile).symm
  · intro x hx
    simpa using List.mem_rtakeWhile_imp hx
  · rcases List.eq_nil_or_concat' (l.rdropWhile fun x => !blank x) with hnil | ⟨init, x, hlast⟩
    · exact Or.inl hnil
    · refine Or.inr ⟨init, x, hlast, ?_⟩
      have hnot := List.rdropWhile_last_not (fun x => !blank x) l (by simp [hlast])
      simpa [hlast] using hnot

/-- The words up to the last one. -/
theorem words_front (hl : ∀ x ∈ l', blank x = false) (hne : l' ≠ [])
    (hfront : l = [] ∨ ∃ init x, l = init ++ [x] ∧ blank x) :
    words blank (l ++ l') = words blank l ++ [l'] := by
  rcases hfront with rfl | ⟨init, x, rfl, hx⟩
  · rw [List.nil_append, words_nil, List.nil_append, words_single hl hne]
  · rw [words_append_blank hx, words_nil, List.append_nil, List.append_assoc,
      List.singleton_append, words_append_blank hx, words_single hl hne]

/-- One more letter. -/
theorem length_words_concat (l : List α) (x : α) :
    (words blank (l ++ [x])).length =
      (words blank l).length + if blank x || inWord blank l then 0 else 1 := by
  by_cases hx : blank x
  · rw [words_append_blank hx, words_nil, List.append_nil, hx]
    rfl
  obtain ⟨front, word, rfl, hword, hfront⟩ := exists_tail blank l
  have hmore : ∀ y ∈ word ++ [x], blank y = false := by
    intro y hy
    rcases List.mem_append.mp hy with hy | hy
    · exact hword y hy
    · rw [List.mem_singleton.mp hy]
      simpa using hx
  rw [List.append_assoc, words_front hmore (by simp) hfront, List.length_append]
  rcases List.eq_nil_or_concat' word with rfl | ⟨init, y, rfl⟩
  · -- A word begins.
    have hout : inWord blank front = false := by
      rcases hfront with rfl | ⟨init, y, rfl, hy⟩
      · rfl
      · simp [inWord, hy]
    simp [hout, hx]
  · -- The last word goes on.
    have hin : inWord blank (front ++ (init ++ [y])) = true := by
      simp [inWord, hword y (by simp)]
    rw [hin, words_front hword (by simp) hfront, List.length_append]
    simp

theorem length_words_le (l : List α) : (words blank l).length ≤ l.length := by
  induction l using List.reverseRecOn with
  | nil => simp
  | append_singleton l x ih =>
      rw [length_words_concat, List.length_append, List.length_singleton]
      split <;> omega

end Words
