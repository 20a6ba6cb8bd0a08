import Mathlib.Algebra.Order.Ring.Int
import Mathlib.Algebra.Order.Ring.Nat

/-!
# The program `writefile`

It compares each line with the line before it, like `uniq`.  A string is the list of its bytes
without the zero at its end.  `none` stands for a write beyond an array.  The count is a natural
number, since a file is too short for an `int` to overflow.
-/

namespace Xv6.Writefile

abbrev Byte := UInt8

def bytes (s : String) : List Byte := s.toList.map Char.toUInt8

def newline : Byte := '\n'.toUInt8

def MAX_LINE_LENGTH : ℕ := 1000

/-- The string at the beginning of an array. -/
def cstring (array : List Byte) : List Byte := array.takeWhile (· ≠ 0)

def strcmp : List Byte → List Byte → ℤ
  | x :: p, y :: q => if x = y then strcmp p q else x.toNat - y.toNat
  | x :: _, [] => x.toNat
  | [], y :: _ => -y.toNat
  | [], [] => 0

/-- The loop over `cmpLine`. -/
def lower (line : List Byte) : List Byte :=
  line.map fun c => if 'A'.toUInt8 ≤ c ∧ c ≤ 'Z'.toUInt8 then c + 32 else c

/-- The format `%d`. -/
def decimal (n : ℕ) : List Byte := (Nat.toDigits 10 n).map Char.toUInt8

structure State where
  previousLine : List Byte
  /-- The bytes before `currentLine[value]`. -/
  currentLine : List Byte
  count : ℕ
  /-- What the calls of `printf` have printed. -/
  printed : List (List Byte)

/-- What is done with a line when its newline has been read. -/
def State.line (cond : List Byte) (s : State) : State :=
  let currentLine := cstring s.currentLine
  if strcmp cond (bytes "-i") = 0 then
    let cmpLine := lower currentLine
    if strcmp s.previousLine cmpLine ≠ 0 then
      { s with printed := s.printed ++ [currentLine], previousLine := cmpLine }
    else s
  else if strcmp cond (bytes "-d") = 0 then
    if strcmp s.previousLine currentLine = 0 then
      let count := s.count + 1
      let printed := if count = 1 then s.printed ++ [currentLine] else s.printed
      { s with count, printed, previousLine := currentLine }
    else { s with count := 0, previousLine := currentLine }
  else if strcmp cond (bytes "-c") = 0 then
    if strcmp s.previousLine currentLine = 0 ∨ strcmp s.previousLine [] = 0 then
      { s with count := s.count + 1, previousLine := currentLine }
    else
      { s with
        printed := s.printed ++ [decimal s.count ++ bytes " " ++ s.previousLine]
        count := 1
        previousLine := currentLine }
  else
    if strcmp currentLine s.previousLine ≠ 0 then
      { s with printed := s.printed ++ [currentLine], previousLine := currentLine }
    else s

/-- The body of the loop over the characters. -/
def State.read (cond : List Byte) (s : State) (c : Byte) : Option State :=
  if s.currentLine.length < MAX_LINE_LENGTH then
    let s := { s with currentLine := s.currentLine ++ [c] }
    if c = newline then
      if s.currentLine.length < MAX_LINE_LENGTH then
        some { s.line cond with currentLine := [] }
      else none
    else some s
  else none

def banner : List Byte := bytes "writefile command is being executed in user mode\n"

def start : State where
  previousLine := []
  currentLine := []
  count := 0
  printed := [banner]

/-- What is printed if the file can be opened and these bytes are read from it. -/
def writefile (cond input : List Byte) : Option (List (List Byte)) :=
  (input.foldlM (State.read cond) start).map State.printed

/-- The calls of `open` give the bytes of a file.  With one argument `cond` is not set: it is the
empty string, as `exec` has filled the stack with zeroes. -/
def main (files : List Byte → Option (List Byte)) :
    List (List Byte) → Option (List (List Byte))
  | [] => some [bytes "Usage: (null) <program_name> <inputFile.txt>\n"]
  | [name] => some [bytes "Usage: " ++ name ++ bytes " <program_name> <inputFile.txt>\n"]
  | [_, inputFile] => open' [] inputFile
  | _ :: cond :: inputFile :: _ => if cond.length < 10 then open' cond inputFile else none
where
  open' (cond inputFile : List Byte) : Option (List (List Byte)) :=
    match files inputFile with
    | some input => writefile cond input
    | none => some [bytes "Error: Cannot open file " ++ inputFile ++ bytes "\n"]

/-! ## Strings and lines -/

variable {p q line : List Byte} {s : State} {c : Byte} {cond : List Byte}

theorem strcmp_eq_zero (hp : 0 ∉ p) (hq : 0 ∉ q) : strcmp p q = 0 ↔ p = q := by
  induction p generalizing q with
  | nil =>
      cases q with
      | nil => exact iff_of_true rfl rfl
      | cons y q =>
          have hy : y.toNat ≠ 0 := fun h =>
            hq (List.mem_cons.mpr (Or.inl (UInt8.toNat_inj.mp h.symm)))
          refine iff_of_false (fun h => hy ?_) (by simp)
          rw [strcmp] at h
          omega
  | cons x p ih =>
      have hx : x.toNat ≠ 0 := fun h => hp (List.mem_cons.mpr (Or.inl (UInt8.toNat_inj.mp h.symm)))
      cases q with
      | nil =>
          refine iff_of_false (fun h => hx ?_) (by simp)
          rw [strcmp] at h
          omega
      | cons y q =>
          rw [strcmp]
          split
          · rename_i hxy
            rw [ih (fun h => hp (List.mem_cons_of_mem _ h))
              (fun h => hq (List.mem_cons_of_mem _ h)), hxy, List.cons.injEq, eq_self, true_and]
          · rename_i hxy
            refine iff_of_false (fun h => hxy (UInt8.toNat_inj.mp ?_))
              fun h => hxy (List.cons.inj h).1
            omega

/-- A line with its newline, which fits in `currentLine`. -/
structure IsLine (line : List Byte) : Prop where
  ends : ∃ text, line = text ++ [newline] ∧ newline ∉ text
  clean : 0 ∉ line
  length_lt : line.length < MAX_LINE_LENGTH

theorem IsLine.ne_nil (h : IsLine line) : line ≠ [] := by
  obtain ⟨text, rfl, -⟩ := h.ends
  simp

theorem cstring_of_not_mem (h : 0 ∉ line) : cstring line = line := by
  induction line with
  | nil => rfl
  | cons c line ih =>
      have hc : c ≠ 0 := fun hzero => h (List.mem_cons.mpr (Or.inl hzero.symm))
      have hline : 0 ∉ line := fun hmem => h (List.mem_cons_of_mem _ hmem)
      calc cstring (c :: line)
          = c :: cstring line := List.takeWhile_cons_of_pos (decide_eq_true hc)
        _ = c :: line := by rw [ih hline]

/-- The characters before the newline are only stored. -/
theorem foldlM_text {text : List Byte} (hnot : newline ∉ text)
    (hlt : s.currentLine.length + text.length < MAX_LINE_LENGTH) :
    text.foldlM (State.read cond) s =
      some { s with currentLine := s.currentLine ++ text } := by
  induction text generalizing s with
  | nil => rw [List.append_nil]; rfl
  | cons c text ih =>
      have hc : c ≠ newline := fun h => hnot (List.mem_cons.mpr (Or.inl h.symm))
      have htext : newline ∉ text := fun h => hnot (List.mem_cons_of_mem _ h)
      rw [List.length_cons] at hlt
      have hread : State.read cond s c = some { s with currentLine := s.currentLine ++ [c] } := by
        rw [State.read, if_pos (by omega)]
        dsimp only
        rw [if_neg hc]
      rw [List.foldlM_cons, hread]
      refine (ih htext ?_).trans ?_
      · rw [List.length_append, List.length_singleton]
        omega
      · rw [List.append_assoc, List.singleton_append]

/-- A line is read. -/
theorem IsLine.foldlM (h : IsLine line) (hs : s.currentLine = []) :
    line.foldlM (State.read cond) s =
      some { State.line cond { s with currentLine := line } with currentLine := [] } := by
  obtain ⟨text, rfl, hnot⟩ := h.ends
  have hlt := h.length_lt
  rw [List.length_append, List.length_singleton] at hlt
  have hlen : s.currentLine.length = 0 := by rw [hs, List.length_nil]
  rw [List.foldlM_append, foldlM_text hnot (by omega), hs, List.nil_append]
  simp only [Option.bind_eq_bind, Option.bind_some, List.foldlM_cons, List.foldlM_nil]
  rw [State.read, if_pos (by dsimp only; omega)]
  dsimp only
  rw [if_pos rfl, if_pos (by rw [List.length_append, List.length_singleton]; exact hlt)]
  rfl

end Xv6.Writefile
