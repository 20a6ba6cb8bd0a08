import Mathlib.Algebra.Order.Ring.Nat
import Xv6.Lib.Words

/-!
# What `wc` counts

`wc` goes through the stream letter by letter and keeps in `inword` whether the last one was part
of a word, so it does not matter where one call of `read` ends and the next one begins.  The
counters are of type `int`.
-/

namespace Xv6.Text

open Words

abbrev Byte := UInt8

def newline : Byte := '\n'.toUInt8

/-! ## The code -/

/-- What the calls of `read` give: the contents of the buffer each time, and the value of `n` that
ends the loop. -/
structure Reads where
  chunks : List (List Byte)
  size : ∀ chunk ∈ chunks, 0 < chunk.length ∧ chunk.length ≤ 512
  n : Int32
  ended : n ≤ 0

def Reads.stream (reads : Reads) : List Byte := reads.chunks.flatten

/-- `strchr(" \r\t\n\v", c)`; the zero at the end of the string is not found. -/
def blank (c : Byte) : Bool := c ∈ [0x20, 0x0D, 0x09, newline, 0x0B]

structure Counts where
  l : Int32
  w : Int32
  c : Int32
  inword : Bool

/-- The body of the inner loop, for `buf[i]`. -/
def Counts.letter (s : Counts) (x : Byte) : Counts :=
  let s := { s with c := s.c + 1 }
  let s := if x = newline then { s with l := s.l + 1 } else s
  if blank x then { s with inword := false }
  else if !s.inword then { s with w := s.w + 1, inword := true }
  else s

def wcLoop : Counts → List (List Byte) → Counts
  | s, [] => s
  | s, buf :: chunks => wcLoop (buf.foldl Counts.letter s) chunks

/-- What is printed: an error, or `"%d %d %d %s\n"`. -/
inductive Report where
  | readError
  | counts (l w c : Int32) (name : List Byte)

def wc (reads : Reads) (name : List Byte) : Report :=
  let s := wcLoop ⟨0, 0, 0, false⟩ reads.chunks
  if reads.n < 0 then .readError else .counts s.l s.w s.c name

/-! ## The counters -/

variable {s : Counts} {text : List Byte} {chunks : List (List Byte)} {x : Byte}

/-- What has been counted of the text so far. -/
structure Counted (text : List Byte) (s : Counts) : Prop where
  lines : s.l = .ofNat (text.count newline)
  words : s.w = .ofNat (words blank text).length
  bytes : s.c = .ofNat text.length
  inword : s.inword = inWord blank text

theorem counted_nil : Counted [] ⟨0, 0, 0, false⟩ where
  lines := rfl
  words := by
    rw [words_nil]
    rfl
  bytes := rfl
  inword := rfl

@[simp] theorem letter_l : (s.letter x).l = if x = newline then s.l + 1 else s.l := by
  rw [Counts.letter]
  split_ifs <;> rfl

@[simp] theorem letter_c : (s.letter x).c = s.c + 1 := by
  rw [Counts.letter]
  split_ifs <;> rfl

@[simp] theorem letter_w :
    (s.letter x).w = if blank x || s.inword then s.w else s.w + 1 := by
  rw [Counts.letter]
  split_ifs <;> simp_all

@[simp] theorem letter_inword : (s.letter x).inword = !blank x := by
  rw [Counts.letter]
  split_ifs <;> simp_all

theorem Counted.letter (hs : Counted text s) (x : Byte) :
    Counted (text ++ [x]) (s.letter x) where
  lines := by
    rw [letter_l, List.count_append, hs.lines, List.count_singleton]
    by_cases hx : x = newline
    · rw [if_pos hx, if_pos (by simpa using hx), Int32.ofNat_add]
      rfl
    · rw [if_neg hx, if_neg (by simpa using hx), Nat.add_zero]
  words := by
    rw [letter_w, length_words_concat, hs.inword, hs.words]
    split
    · rw [Nat.add_zero]
    · rw [Int32.ofNat_add]
      rfl
  bytes := by
    rw [letter_c, List.length_append, hs.bytes, Int32.ofNat_add]
    rfl
  inword := by
    rw [letter_inword, inWord, List.getLast?_concat]
    rfl

theorem Counted.foldl (hs : Counted text s) (buf : List Byte) :
    Counted (text ++ buf) (buf.foldl Counts.letter s) := by
  induction buf generalizing text s with
  | nil => rwa [List.append_nil]
  | cons x buf ih =>
      rw [List.append_cons, List.foldl_cons]
      exact ih (hs.letter x)

theorem Counted.wcLoop (hs : Counted text s) (chunks : List (List Byte)) :
    Counted (text ++ chunks.flatten) (wcLoop s chunks) := by
  induction chunks generalizing text s with
  | nil => rwa [List.flatten_nil, List.append_nil]
  | cons buf chunks ih =>
      rw [List.flatten_cons, ← List.append_assoc, Text.wcLoop]
      exact ih (hs.foldl buf)

/-- The numbers of lines, words and bytes, as far as an `int` can hold them. -/
theorem wc_eq (reads : Reads) (name : List Byte) : wc reads name =
    if reads.n < 0 then .readError
    else .counts (.ofNat (reads.stream.count newline)) (.ofNat (words blank reads.stream).length)
      (.ofNat reads.stream.length) name := by
  have hloop := counted_nil.wcLoop reads.chunks
  rw [List.nil_append] at hloop
  rw [wc, hloop.lines, hloop.words, hloop.bytes, Reads.stream]

end Xv6.Text
