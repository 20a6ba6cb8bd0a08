import Xv6.Writefile.Modes

/-!
# The option `-c` of `writefile`

The count and the text of a run are printed when the first line of the next run has been read.
So the last run is not printed.
-/

namespace Xv6.Writefile

open Runs

variable {s : State} {input line a : List Byte} {l run rest : List (List Byte)}

/-- The line for a run. -/
def report (count : ℕ) (line : List Byte) : List Byte := decimal count ++ bytes " " ++ line

/-- One line for each run, with its length and its text. -/
def counted (l : List (List Byte)) : List (List Byte) :=
  (runs id l).map fun run => report run.length (run.headD [])

theorem counted_cons (hrun : ∀ b ∈ run, id b = id a) (hrest : ∀ b ∈ rest.head?, id b ≠ id a) :
    counted (a :: run ++ rest) = report (run.length + 1) a :: counted rest := by
  rw [counted, runs_cons hrun hrest]
  rfl

@[simp] theorem counted_eq_nil : counted l = [] ↔ l = [] := by
  rw [counted, List.map_eq_nil_iff, runs, List.splitBy_eq_nil]

/-- The counts add up to the number of lines. -/
theorem sum_counts (l : List (List Byte)) : ((runs id l).map List.length).sum = l.length := by
  rw [← List.length_flatten, runs, List.flatten_splitBy]

/-! ## The mode -/

theorem next_counted (hs : s.Between) (hline : IsLine line) :
    s.next (bytes "-c") line =
      if line = s.previousLine ∨ s.previousLine = [] then
        { s with count := s.count + 1, previousLine := line }
      else
        { s with
          printed := s.printed ++ [report s.count s.previousLine]
          count := 1
          previousLine := line } := by
  have hi : strcmp (bytes "-c") (bytes "-i") ≠ 0 := by decide
  have hd : strcmp (bytes "-c") (bytes "-d") ≠ 0 := by decide
  have hc : strcmp (bytes "-c") (bytes "-c") = 0 := by decide
  obtain ⟨previousLine, currentLine, count, printed⟩ := s
  obtain ⟨hclean, rfl : currentLine = []⟩ := hs
  have hcmp : strcmp previousLine line = 0 ↔ line = previousLine :=
    (strcmp_eq_zero hclean hline.clean).trans eq_comm
  have hempty : strcmp previousLine [] = 0 ↔ previousLine = [] :=
    strcmp_eq_zero hclean List.not_mem_nil
  simp only [State.next, State.line, if_neg hi, if_neg hd, if_pos hc,
    cstring_of_not_mem hline.clean, hcmp, hempty]
  split
  · rfl
  · rfl

/-- The lines of a run are only counted. -/
theorem foldl_counts (hs : s.Between) (hrun : ∀ line ∈ run, IsLine line)
    (hsame : ∀ line ∈ run, line = s.previousLine) :
    run.foldl (State.next (bytes "-c")) s = { s with count := s.count + run.length } := by
  induction run generalizing s with
  | nil => rfl
  | cons line run ih =>
      have hline : line = s.previousLine := hsame line List.mem_cons_self
      have hnext := next_counted hs (hrun line List.mem_cons_self)
      rw [if_pos (Or.inl hline), hline] at hnext
      rw [List.foldl_cons, hline, hnext, ih]
      · rw [List.length_cons, Nat.add_comm run.length, ← Nat.add_assoc]
      · exact ⟨hs.clean, hs.empty⟩
      · exact fun line h => hrun line (List.mem_cons_of_mem _ h)
      · exact fun line h => hsame line (List.mem_cons_of_mem _ h)

/-- The first line of the next run prints the one before, and the last run is left. -/
theorem printed_counted (hs : s.Between) (hprevious : s.previousLine ≠ [])
    (hl : ∀ line ∈ l, IsLine line) (hnew : ∀ line ∈ l.head?, line ≠ s.previousLine) :
    (l.foldl (State.next (bytes "-c")) s).printed =
      s.printed ++ (report s.count s.previousLine :: counted l).dropLast := by
  induction l using @run_induction _ (List Byte) _ id generalizing s with
  | hnil => exact (List.append_nil _).symm
  | hcons a run rest hrun hrest ih =>
      have ha : IsLine a := hl a List.mem_cons_self
      have hrunlines : ∀ line ∈ run, IsLine line := fun line hline =>
        hl line (List.mem_cons_of_mem _ (List.mem_append_left _ hline))
      have hnext := next_counted hs ha
      rw [if_neg (by rintro (h | h); exacts [hnew a rfl h, hprevious h])] at hnext
      have hafter := @foldl_counts (s.next (bytes "-c") a) run
      rw [hnext] at hafter
      rw [counted_cons hrun hrest, List.dropLast_cons_of_ne_nil (List.cons_ne_nil _ _),
        List.cons_append, List.foldl_cons, List.foldl_append, hnext,
        hafter ⟨ha.clean, hs.empty⟩ hrunlines hrun, ih]
      · rw [List.append_assoc, List.singleton_append, Nat.add_comm 1]
      · exact ⟨ha.clean, hs.empty⟩
      · exact ha.ne_nil
      · exact fun line hline => hl line (List.mem_cons_of_mem _ (List.mem_append_right _ hline))
      · exact hrest

/-- From the beginning: the first line prints nothing. -/
theorem start_counted (hl : ∀ line ∈ l, IsLine line) :
    (l.foldl (State.next (bytes "-c")) start).printed = banner :: (counted l).dropLast := by
  induction l using @run_induction _ (List Byte) _ id with
  | hnil => rfl
  | hcons a run rest hrun hrest _ =>
      have ha : IsLine a := hl a List.mem_cons_self
      have hrunlines : ∀ line ∈ run, IsLine line := fun line hline =>
        hl line (List.mem_cons_of_mem _ (List.mem_append_left _ hline))
      have hnext := next_counted start_between ha
      have hstart : start.previousLine = [] := rfl
      rw [if_pos (Or.inr hstart)] at hnext
      have hafter := @foldl_counts (start.next (bytes "-c") a) run
      rw [hnext] at hafter
      rw [counted_cons hrun hrest, List.cons_append, List.foldl_cons, List.foldl_append, hnext,
        hafter ⟨ha.clean, rfl⟩ hrunlines hrun, printed_counted]
      · have hcount : start.count + 1 + run.length = run.length + 1 := by
          rw [Nat.add_comm run.length]
          rfl
        rw [hcount]
        rfl
      · exact ⟨ha.clean, rfl⟩
      · exact ha.ne_nil
      · exact fun line hline => hl line (List.mem_cons_of_mem _ (List.mem_append_right _ hline))
      · exact hrest

/-- What is printed behind the banner with `-c`: all runs but the last one.  So every run is
printed exactly if there is none.  The counts of all runs would add up to the number of lines. -/
theorem prints_counts {files : List Byte → Option (List Byte)} {name inputFile : List Byte}
    (args : List (List Byte)) (hfile : files inputFile = some l.flatten)
    (hl : ∀ line ∈ l, IsLine line) :
    main files (name :: bytes "-c" :: inputFile :: args) =
        some (banner :: (counted l).dropLast) ∧
      (main files (name :: bytes "-c" :: inputFile :: args) = some (banner :: counted l) ↔
        l = []) ∧
      ((runs id l).map List.length).sum = l.length := by
  have hprints : main files (name :: bytes "-c" :: inputFile :: args) =
      some (banner :: (counted l).dropLast) := by
    rw [main_open hfile (by decide), writefile_lines hl, start_counted hl]
  refine ⟨hprints, ?_, sum_counts l⟩
  rw [hprints, Option.some.injEq, List.cons.injEq, eq_self, true_and, ← counted_eq_nil]
  constructor
  · intro heq
    by_contra hne
    have hlength := congrArg List.length heq
    have hpos := List.length_pos_iff.mpr hne
    rw [List.length_dropLast] at hlength
    omega
  · intro hnil
    rw [hnil]
    rfl

theorem lines_of_a : ∀ line ∈ [bytes "a\n", bytes "a\n"], IsLine line := by
  intro line hline
  simp only [List.mem_cons, List.not_mem_nil, or_false, or_self] at hline
  rw [hline]
  exact ⟨⟨bytes "a", by decide, by decide⟩, by decide, by decide⟩

/-- Two equal lines, which are not reported. -/
theorem prints_counts_sample :
    main (fun _ => some (bytes "a\na\n")) [bytes "writefile", bytes "-c", bytes "f"] =
      some [banner] :=
  (@prints_counts [bytes "a\n", bytes "a\n"] (fun _ => some (bytes "a\na\n")) (bytes "writefile")
    (bytes "f") [] (by decide) lines_of_a).1.trans (by decide)

/-- Not every run is printed. -/
theorem last_run_not_printed :
    ¬ ∀ (files : List Byte → Option (List Byte)) (name inputFile : List Byte)
      (l args : List (List Byte)), files inputFile = some l.flatten → (∀ line ∈ l, IsLine line) →
        main files (name :: bytes "-c" :: inputFile :: args) = some (banner :: counted l) := by
  intro h
  have hall := h (fun _ => some (bytes "a\na\n")) (bytes "writefile") (bytes "f")
    [bytes "a\n", bytes "a\n"] [] (by decide) lines_of_a
  exact absurd hall (by decide)

end Xv6.Writefile
