import Xv6.Lib.Runs
import Xv6.Writefile.Code

/-!
# What `writefile` prints

The remembered line stands for the current run.  A line that differs from it begins the next
run, and the lines after it in its run do not differ.
-/

namespace Xv6.Writefile

open Runs

variable {s t : State} {cond input line a : List Byte} {l run rest : List (List Byte)}

/-- A line has been read. -/
def State.next (cond : List Byte) (s : State) (line : List Byte) : State :=
  { State.line cond { s with currentLine := line } with currentLine := [] }

/-- A file is read line by line. -/
theorem foldlM_lines (hl : ∀ line ∈ l, IsLine line) (hs : s.currentLine = []) :
    l.flatten.foldlM (State.read cond) s = some (l.foldl (State.next cond) s) := by
  induction l generalizing s with
  | nil => rfl
  | cons line l ih =>
      have hline : IsLine line := hl line List.mem_cons_self
      have hrest : ∀ line ∈ l, IsLine line := fun line h => hl line (List.mem_cons_of_mem _ h)
      rw [List.flatten_cons, List.foldlM_append, hline.foldlM hs]
      exact ih hrest rfl

theorem writefile_lines (hl : ∀ line ∈ l, IsLine line) :
    writefile cond l.flatten = some (l.foldl (State.next cond) start).printed := by
  rw [writefile, foldlM_lines hl rfl]
  rfl

/-- The state between two lines. -/
structure State.Between (s : State) : Prop where
  clean : 0 ∉ s.previousLine
  empty : s.currentLine = []

theorem start_between : start.Between := ⟨List.not_mem_nil, rfl⟩

/-! ## The options -/

def options : List (List Byte) := [bytes "-i", bytes "-d", bytes "-c"]

theorem strcmp_option (hcond : 0 ∉ cond) {option : List Byte} (hoption : option ∈ options) :
    strcmp cond option = 0 ↔ cond = option := by
  apply strcmp_eq_zero hcond
  simp only [options, List.mem_cons, List.not_mem_nil, or_false] at hoption
  rcases hoption with rfl | rfl | rfl
  · decide
  · decide
  · decide

theorem not_mem_lower (h : 0 ∉ line) : 0 ∉ lower line := by
  intro hmem
  obtain ⟨c, hc, heq⟩ := List.mem_map.mp hmem
  split at heq
  · rename_i hupper
    -- a letter is not moved to zero
    have hle : c.toNat ≤ 90 := hupper.2
    have hzero := congrArg UInt8.toNat heq
    rw [UInt8.toNat_add] at hzero
    have h32 : UInt8.toNat 32 = 32 := rfl
    have h0 : UInt8.toNat 0 = 0 := rfl
    omega
  · exact h (heq ▸ hc)

/-! ## The modes that print the first line of a run -/

/-- With this option a line is printed if its key is not the one remembered. -/
def Keyed (key : List Byte → List Byte) (cond : List Byte) : Prop :=
  ∀ (s : State) (line : List Byte), s.Between → IsLine line →
    0 ∉ key line ∧ s.next cond line =
      if key line = s.previousLine then s
      else { s with printed := s.printed ++ [line], previousLine := key line }

theorem keyed_default (hcond : 0 ∉ cond) (hnot : cond ∉ options) : Keyed id cond := by
  intro s line hs hline
  refine ⟨hline.clean, ?_⟩
  have hno : ∀ option ∈ options, strcmp cond option ≠ 0 := fun option hoption h =>
    hnot ((strcmp_option hcond hoption).mp h ▸ hoption)
  have hi := hno (bytes "-i") (by simp [options])
  have hd := hno (bytes "-d") (by simp [options])
  have hc := hno (bytes "-c") (by simp [options])
  obtain ⟨previousLine, currentLine, count, printed⟩ := s
  obtain ⟨hclean, rfl : currentLine = []⟩ := hs
  have hcmp : strcmp line previousLine = 0 ↔ line = previousLine :=
    strcmp_eq_zero hline.clean hclean
  simp only [State.next, State.line, if_neg hi, if_neg hd, if_neg hc,
    cstring_of_not_mem hline.clean, ne_eq, hcmp, ite_not, id]
  split
  · rfl
  · rfl

theorem keyed_ignoring_case : Keyed lower (bytes "-i") := by
  intro s line hs hline
  have hlower : 0 ∉ lower line := not_mem_lower hline.clean
  refine ⟨hlower, ?_⟩
  have hi : strcmp (bytes "-i") (bytes "-i") = 0 := by decide
  obtain ⟨previousLine, currentLine, count, printed⟩ := s
  obtain ⟨hclean, rfl : currentLine = []⟩ := hs
  have hcmp : strcmp previousLine (lower line) = 0 ↔ lower line = previousLine :=
    (strcmp_eq_zero hclean hlower).trans eq_comm
  simp only [State.next, State.line, if_pos hi, cstring_of_not_mem hline.clean, ne_eq, hcmp,
    ite_not]
  split
  · rfl
  · rfl

variable {key : List Byte → List Byte}

/-- The first lines of the runs. -/
def firsts (key : List Byte → List Byte) (l : List (List Byte)) : List (List Byte) :=
  (runs key l).filterMap List.head?

theorem firsts_cons (hrun : ∀ b ∈ run, key b = key a) (hrest : ∀ b ∈ rest.head?, key b ≠ key a) :
    firsts key (a :: run ++ rest) = a :: firsts key rest := by
  rw [firsts, runs_cons hrun hrest]
  rfl

/-- Lines with the key that is remembered are not printed. -/
theorem Keyed.foldl_same (h : Keyed key cond) (hs : s.Between) (hl : ∀ line ∈ l, IsLine line)
    (hkey : ∀ line ∈ l, key line = s.previousLine) : l.foldl (State.next cond) s = s := by
  induction l with
  | nil => rfl
  | cons line l ih =>
      have hnext := (h s line hs (hl line List.mem_cons_self)).2
      rw [if_pos (hkey line List.mem_cons_self)] at hnext
      rw [List.foldl_cons, hnext]
      exact ih (fun line h => hl line (List.mem_cons_of_mem _ h))
        fun line h => hkey line (List.mem_cons_of_mem _ h)

theorem Keyed.printed (h : Keyed key cond) (hs : s.Between) (hl : ∀ line ∈ l, IsLine line)
    (hkey : ∀ line ∈ l.head?, key line ≠ s.previousLine) :
    (l.foldl (State.next cond) s).printed = s.printed ++ firsts key l := by
  induction l using @run_induction _ _ _ key generalizing s with
  | hnil => exact (List.append_nil _).symm
  | hcons a run rest hrun hrest ih =>
      have ha : IsLine a := hl a List.mem_cons_self
      have hnext := h s a hs ha
      rw [if_neg (hkey a rfl)] at hnext
      have hbetween : (s.next cond a).Between := by
        rw [hnext.2]
        exact ⟨hnext.1, hs.empty⟩
      have hsame : run.foldl (State.next cond) (s.next cond a) = s.next cond a := by
        apply h.foldl_same hbetween
        · exact fun line hline => hl line (List.mem_cons_of_mem _ (List.mem_append_left _ hline))
        · rw [hnext.2]
          exact hrun
      rw [firsts_cons hrun hrest, List.cons_append, List.foldl_cons, List.foldl_append, hsame,
        ih hbetween, hnext.2]
      · exact List.append_assoc s.printed [a] _
      · exact fun line hline => hl line (List.mem_cons_of_mem _ (List.mem_append_right _ hline))
      · rw [hnext.2]
        exact hrest

/-! ## The mode that prints repeated lines -/

/-- One line of each run of two or more. -/
def repeated (l : List (List Byte)) : List (List Byte) :=
  ((runs id l).filter fun run => 2 ≤ run.length).filterMap List.head?

theorem repeated_cons (hrun : ∀ b ∈ run, id b = id a) (hrest : ∀ b ∈ rest.head?, id b ≠ id a) :
    repeated (a :: run ++ rest) = (if run = [] then [] else [a]) ++ repeated rest := by
  rw [repeated, runs_cons hrun hrest]
  cases run with
  | nil => rfl
  | cons b run => rfl

theorem next_repeated (hs : s.Between) (hline : IsLine line) :
    s.next (bytes "-d") line =
      if line = s.previousLine then
        { s with
          count := s.count + 1
          printed := if s.count = 0 then s.printed ++ [line] else s.printed }
      else { s with count := 0, previousLine := line } := by
  have hi : strcmp (bytes "-d") (bytes "-i") ≠ 0 := by decide
  have hd : strcmp (bytes "-d") (bytes "-d") = 0 := by decide
  obtain ⟨previousLine, currentLine, count, printed⟩ := s
  obtain ⟨hclean, rfl : currentLine = []⟩ := hs
  have hcmp : strcmp previousLine line = 0 ↔ line = previousLine :=
    (strcmp_eq_zero hclean hline.clean).trans eq_comm
  simp only [State.next, State.line, if_neg hi, if_pos hd, cstring_of_not_mem hline.clean, hcmp,
    Nat.add_eq_right]
  split
  · rename_i heq
    rw [heq]
  · rfl

/-- When a copy has been printed, the others of the run are only counted. -/
theorem foldl_counted (hs : s.Between) (hcount : s.count ≠ 0) (hl : ∀ line ∈ l, IsLine line)
    (hsame : ∀ line ∈ l, line = s.previousLine) :
    l.foldl (State.next (bytes "-d")) s = { s with count := s.count + l.length } := by
  induction l generalizing s with
  | nil => rfl
  | cons line l ih =>
      have hnext := next_repeated hs (hl line List.mem_cons_self)
      rw [if_pos (hsame line List.mem_cons_self), if_neg hcount] at hnext
      rw [List.foldl_cons, hnext, ih]
      · rw [List.length_cons, Nat.add_comm l.length, ← Nat.add_assoc]
      · exact ⟨hs.clean, hs.empty⟩
      · exact Nat.succ_ne_zero _
      · exact fun line h => hl line (List.mem_cons_of_mem _ h)
      · exact fun line h => hsame line (List.mem_cons_of_mem _ h)

/-- A run whose first line has been read. -/
theorem foldl_run (hs : s.Between) (hcount : s.count = 0) (hrun : ∀ line ∈ run, IsLine line)
    (hsame : ∀ line ∈ run, line = s.previousLine) :
    run.foldl (State.next (bytes "-d")) s =
      { s with
        count := run.length
        printed := s.printed ++ if run = [] then [] else [s.previousLine] } := by
  cases run with
  | nil =>
      obtain ⟨previousLine, currentLine, count, printed⟩ := s
      obtain rfl : count = 0 := hcount
      rw [if_pos rfl, List.append_nil]
      rfl
  | cons line run =>
      have hline : line = s.previousLine := hsame line List.mem_cons_self
      have hnext := next_repeated hs (hrun line List.mem_cons_self)
      rw [if_pos hline, if_pos hcount, hcount, hline] at hnext
      rw [if_neg (List.cons_ne_nil _ _), List.foldl_cons, hline, hnext, foldl_counted]
      · rw [List.length_cons, Nat.add_comm run.length]
      · exact ⟨hs.clean, hs.empty⟩
      · exact Nat.one_ne_zero
      · exact fun line h => hrun line (List.mem_cons_of_mem _ h)
      · exact fun line h => hsame line (List.mem_cons_of_mem _ h)

theorem printed_repeated (hs : s.Between) (hl : ∀ line ∈ l, IsLine line)
    (hnew : ∀ line ∈ l.head?, line ≠ s.previousLine) :
    (l.foldl (State.next (bytes "-d")) s).printed = s.printed ++ repeated l := by
  induction l using @run_induction _ (List Byte) _ id generalizing s with
  | hnil => exact (List.append_nil _).symm
  | hcons a run rest hrun hrest ih =>
      have ha : IsLine a := hl a List.mem_cons_self
      have hnext := next_repeated hs ha
      rw [if_neg (hnew a rfl)] at hnext
      have hrunlines : ∀ line ∈ run, IsLine line := fun line hline =>
        hl line (List.mem_cons_of_mem _ (List.mem_append_left _ hline))
      have hafter := @foldl_run (s.next (bytes "-d") a) run
      rw [hnext] at hafter
      rw [repeated_cons hrun hrest, List.cons_append, List.foldl_cons, List.foldl_append, hnext,
        hafter ⟨ha.clean, hs.empty⟩ rfl hrunlines hrun, ih]
      · exact List.append_assoc s.printed _ _
      · exact ⟨ha.clean, hs.empty⟩
      · exact fun line hline => hl line (List.mem_cons_of_mem _ (List.mem_append_right _ hline))
      · exact hrest

/-! ## What is printed -/

theorem start_differs (hl : ∀ line ∈ l, IsLine line) {key : List Byte → List Byte}
    (hkey : ∀ line, key line = [] → line = []) : ∀ line ∈ l.head?, key line ≠ [] := by
  intro line hline hnil
  exact (hl line (List.mem_of_mem_head? hline)).ne_nil (hkey line hnil)

theorem main_open {files : List Byte → Option (List Byte)} {name inputFile : List Byte}
    {args : List (List Byte)} (hfile : files inputFile = some input) (hcond : cond.length < 10) :
    main files (name :: cond :: inputFile :: args) = writefile cond input := by
  rw [main, if_pos hcond, main.open', hfile]

/-- What is printed behind the banner without an option or with an unknown one, with `-i` and
with `-d`. -/
theorem prints_runs {files : List Byte → Option (List Byte)} {name inputFile : List Byte}
    (args : List (List Byte)) (hfile : files inputFile = some l.flatten)
    (hl : ∀ line ∈ l, IsLine line) :
    main files [name, inputFile] = some (banner :: firsts id l) ∧
      (∀ cond, 0 ∉ cond → cond.length < 10 → cond ∉ options →
        main files (name :: cond :: inputFile :: args) = some (banner :: firsts id l)) ∧
      main files (name :: bytes "-i" :: inputFile :: args) = some (banner :: firsts lower l) ∧
      main files (name :: bytes "-d" :: inputFile :: args) = some (banner :: repeated l) := by
  have hnew : ∀ line ∈ l.head?, line ≠ [] := start_differs hl fun _ h => h
  have hdefault : ∀ cond, 0 ∉ cond → cond ∉ options →
      writefile cond l.flatten = some (banner :: firsts id l) := by
    intro cond hclean hnot
    rw [writefile_lines hl, (keyed_default hclean hnot).printed start_between hl hnew]
    rfl
  refine ⟨?_, ?_, ?_, ?_⟩
  · rw [main, main.open', hfile]
    exact hdefault [] List.not_mem_nil (by decide)
  · intro cond hclean hlen hnot
    rw [main_open hfile hlen]
    exact hdefault cond hclean hnot
  · have hlower : ∀ line ∈ l.head?, lower line ≠ [] :=
      start_differs hl fun _ => List.map_eq_nil_iff.mp
    rw [main_open hfile (by decide), writefile_lines hl,
      keyed_ignoring_case.printed start_between hl hlower]
    rfl
  · rw [main_open hfile (by decide), writefile_lines hl, printed_repeated start_between hl hnew]
    rfl

/-- Three lines, of which two are the same up to case. -/
theorem prints_runs_sample :
    main (fun _ => some (bytes "a\nA\nb\n")) [bytes "writefile", bytes "-i", bytes "f"] =
      some [banner, bytes "a\n", bytes "b\n"] := by
  have hline : ∀ line ∈ [bytes "a\n", bytes "A\n", bytes "b\n"], IsLine line := by
    intro line hline
    simp only [List.mem_cons, List.not_mem_nil, or_false] at hline
    rcases hline with rfl | rfl | rfl
    · exact ⟨⟨bytes "a", by decide, by decide⟩, by decide, by decide⟩
    · exact ⟨⟨bytes "A", by decide, by decide⟩, by decide, by decide⟩
    · exact ⟨⟨bytes "b", by decide, by decide⟩, by decide, by decide⟩
  exact (@prints_runs _ (fun _ => some (bytes "a\nA\nb\n")) (bytes "writefile") (bytes "f") []
    (by decide) hline).2.2.1.trans (by decide)

/-- Nothing is to be printed of an empty file, but the banner is. -/
theorem prints_banner :
    ¬ ∀ (files : List Byte → Option (List Byte)) (name inputFile : List Byte)
      (l : List (List Byte)), files inputFile = some l.flatten → (∀ line ∈ l, IsLine line) →
        main files [name, inputFile] = some (firsts id l) := by
  intro h
  have hempty := h (fun _ => some []) (bytes "writefile") (bytes "f") [] rfl (by simp)
  exact absurd hempty (by decide)

end Xv6.Writefile
