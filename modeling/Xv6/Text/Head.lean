import Mathlib.Algebra.Order.Ring.Int
import Xv6.Text.Wc

/-!
# What `head` writes

`head` tests `count < textlines` before each letter and also after each call of `read`.  The second
test does not change what is written: when it fails, the first one would fail as well.  So the
loops can be run over the whole stream at once (`copyChunks_eq`).

`write i` says whether the `i`th call of `write` has written its byte.
-/

namespace Xv6.Text

open Words

/-! ## The code -/

/-- The number of lines and the bytes that have been written. -/
structure Copied where
  count : Int32
  out : List Byte

/-- The body of the inner loop, for `buffer[i]`.  On a write error `head` exits. -/
def Copied.letter (write : ℕ → Bool) (s : Copied) (x : Byte) : Except (List Byte) Copied :=
  if write s.out.length then
    .ok { count := if x = newline then s.count + 1 else s.count, out := s.out ++ [x] }
  else .error s.out

/-- The inner loop. -/
def copy (write : ℕ → Bool) (textlines : Int32) :
    Copied → List Byte → Except (List Byte) Copied
  | s, [] => .ok s
  | s, x :: buffer =>
      if s.count < textlines then do copy write textlines (← s.letter write x) buffer else .ok s

/-- The outer loop. -/
def copyChunks (write : ℕ → Bool) (textlines : Int32) :
    Copied → List (List Byte) → Except (List Byte) Copied
  | s, [] => .ok s
  | s, buffer :: chunks =>
      if s.count < textlines then do
        copyChunks write textlines (← copy write textlines s buffer) chunks
      else .ok s

/-- What `head` has written when it returns, or when it exits with `"head: write error\n"`. -/
def head (write : ℕ → Bool) (reads : Reads) (textlines : Int32) :
    Except (List Byte) (List Byte) :=
  (copyChunks write textlines ⟨0, []⟩ reads.chunks).map Copied.out

/-! ## The two loops -/

variable {write : ℕ → Bool} {textlines : Int32} {s : Copied} {a b out text : List Byte}
  {chunks : List (List Byte)} {count : Int32} {k : ℤ} {x : Byte}

theorem copy_of_le (h : ¬ s.count < textlines) (a : List Byte) :
    copy write textlines s a = .ok s := by
  cases a with
  | nil => rfl
  | cons x a => rw [copy, if_neg h]

theorem copy_append (s : Copied) (a b : List Byte) : copy write textlines s (a ++ b) =
    copy write textlines s a >>= fun s => copy write textlines s b := by
  induction a generalizing s with
  | nil => rfl
  | cons x a ih =>
      rw [List.cons_append, copy, copy]
      by_cases hcount : s.count < textlines
      · rw [if_pos hcount, if_pos hcount]
        cases s.letter write x with
        | error out => rfl
        | ok s => exact ih s
      · rw [if_neg hcount, if_neg hcount]
        exact (copy_of_le hcount b).symm

/-- It does not matter where the stream is cut. -/
theorem copyChunks_eq (s : Copied) (chunks : List (List Byte)) :
    copyChunks write textlines s chunks = copy write textlines s chunks.flatten := by
  induction chunks generalizing s with
  | nil => rfl
  | cons buffer chunks ih =>
      rw [copyChunks, List.flatten_cons]
      by_cases hcount : s.count < textlines
      · rw [if_pos hcount, copy_append]
        exact congrArg _ (funext ih)
      · rw [if_neg hcount, copy_of_le hcount]

/-! ## What is copied -/

/-- What is copied when nothing goes wrong. -/
def upTo (textlines : Int32) : Int32 → List Byte → List Byte
  | _, [] => []
  | count, x :: text =>
      if count < textlines then
        x :: upTo textlines (if x = newline then count + 1 else count) text
      else []

/-- The bytes are written one after the other. -/
def writeAll (write : ℕ → Bool) : List Byte → List Byte → Except (List Byte) (List Byte)
  | out, [] => .ok out
  | out, x :: text => if write out.length then writeAll write (out ++ [x]) text else .error out

theorem copy_map_out (s : Copied) (text : List Byte) :
    (copy write textlines s text).map Copied.out =
      writeAll write s.out (upTo textlines s.count text) := by
  induction text generalizing s with
  | nil => rfl
  | cons x text ih =>
      rw [copy, upTo]
      by_cases hcount : s.count < textlines
      · rw [if_pos hcount, if_pos hcount, writeAll, Copied.letter]
        by_cases hwrite : write s.out.length
        · rw [if_pos hwrite, if_pos hwrite]
          exact ih _
        · rw [if_neg hwrite, if_neg hwrite]
          rfl
      · rw [if_neg hcount, if_neg hcount]
        rfl

theorem length_concat_add (out : List Byte) (x : Byte) (i : ℕ) :
    (out ++ [x]).length + i = out.length + (i + 1) := by
  rw [List.length_append, List.length_singleton, Nat.add_assoc, Nat.add_comm 1 i]

theorem writeAll_ok (h : ∀ i < text.length, write (out.length + i)) :
    writeAll write out text = .ok (out ++ text) := by
  induction text generalizing out with
  | nil => rw [writeAll, List.append_nil]
  | cons x text ih =>
      have hfirst : write out.length := h 0 (Nat.zero_lt_succ _)
      rw [writeAll, if_pos hfirst, ih, List.append_assoc, List.singleton_append]
      intro i hi
      rw [length_concat_add]
      exact h (i + 1) (Nat.succ_lt_succ hi)

theorem writeAll_error {i : ℕ} (hi : i < text.length) (hwrite : write (out.length + i) = false)
    (h : ∀ j < i, write (out.length + j)) :
    writeAll write out text = .error (out ++ text.take i) := by
  induction text generalizing out i with
  | nil => exact absurd hi (Nat.not_lt_zero i)
  | cons x text ih =>
      rw [writeAll]
      cases i with
      | zero =>
          have hfirst : write out.length = false := hwrite
          rw [hfirst, List.take_zero, List.append_nil]
          rfl
      | succ i =>
          have hfirst : write out.length := h 0 (Nat.zero_lt_succ i)
          rw [if_pos hfirst, ih (Nat.lt_of_succ_lt_succ hi), List.take_succ_cons,
            List.append_assoc, List.singleton_append]
          · rwa [length_concat_add]
          · intro j hj
            rw [length_concat_add]
            exact h (j + 1) (Nat.succ_lt_succ hj)

/-! ## The first lines -/

/-- The shortest start of the text that has `k` newlines, or all of it. -/
structure FirstLines (k : ℤ) (text out : List Byte) : Prop where
  isPrefix : out <+: text
  enough : k ≤ out.count newline ∨ out = text
  shortest : ∀ start, start <+: text → k ≤ start.count newline → out.length ≤ start.length

theorem firstLines_nil : FirstLines k [] [] where
  isPrefix := List.prefix_rfl
  enough := Or.inr rfl
  shortest start _ _ := Nat.zero_le start.length

theorem firstLines_of_le (h : k ≤ 0) (text : List Byte) : FirstLines k text [] where
  isPrefix := List.nil_prefix
  enough := Or.inl h
  shortest start _ _ := Nat.zero_le start.length

theorem FirstLines.cons (h : 0 < k)
    (hrest : FirstLines (k - if x = newline then 1 else 0) text out) :
    FirstLines k (x :: text) (x :: out) where
  isPrefix := (List.prefix_cons_inj x).mpr hrest.isPrefix
  enough := by
    rcases hrest.enough with henough | rfl
    · left
      rw [List.count_cons]
      by_cases hx : x = newline
      · rw [if_pos hx] at henough
        rw [if_pos (by simpa using hx)]
        omega
      · rw [if_neg hx] at henough
        omega
    · exact Or.inr rfl
  shortest start hstart hcount := by
    cases start with
    | nil => exact absurd hcount (not_le.mpr h)
    | cons y start =>
        obtain ⟨rfl, hrestart⟩ := List.cons_prefix_cons.mp hstart
        refine Nat.succ_le_succ (hrest.shortest start hrestart ?_)
        rw [List.count_cons] at hcount
        by_cases hx : y = newline
        · rw [if_pos (by simpa using hx)] at hcount
          rw [if_pos hx]
          omega
        · rw [if_neg (by simpa using hx)] at hcount
          rw [if_neg hx]
          omega

/-- As long as there are lines to come, the counter does not overflow. -/
theorem toInt_add_one (h : count < textlines) : (count + 1).toInt = count.toInt + 1 := by
  have hlt := Int32.lt_iff_toInt_lt.mp h
  have hmin := Int32.le_toInt count
  have hmax := Int32.toInt_lt textlines
  rw [Int32.toInt_add, Int32.toInt_one]
  exact Int.bmod_eq_of_le (by omega) (by omega)

theorem firstLines_upTo (count : Int32) (text : List Byte) :
    FirstLines (textlines.toInt - count.toInt) text (upTo textlines count text) := by
  induction text generalizing count with
  | nil => exact firstLines_nil
  | cons x text ih =>
      rw [upTo]
      split
      · rename_i hcount
        have hlt := Int32.lt_iff_toInt_lt.mp hcount
        refine FirstLines.cons (by omega) ?_
        by_cases hx : x = newline
        · have hnext := ih (count + 1)
          rw [toInt_add_one hcount] at hnext
          rwa [if_pos hx, if_pos hx, Int.sub_sub]
        · rw [if_neg hx, if_neg hx, Int.sub_zero]
          exact ih count
      · rename_i hcount
        rw [Int32.lt_iff_toInt_lt] at hcount
        exact firstLines_of_le (by omega) (x :: text)

theorem head_eq (write : ℕ → Bool) (reads : Reads) (textlines : Int32) :
    head write reads textlines = writeAll write [] (upTo textlines 0 reads.stream) := by
  rw [head, copyChunks_eq, copy_map_out, Reads.stream]

/-! ## Both programs -/

/-- `wc` prints the numbers of lines, words and bytes as far as an `int` can hold them, and
`head` writes the first lines unless a call of `write` fails. -/
theorem chunks_same (reads : Reads) (name : List Byte) (write : ℕ → Bool) (textlines : Int32) :
    (reads.n < 0 → wc reads name = .readError) ∧
      (¬ reads.n < 0 → ∃ l w c : Int32, wc reads name = .counts l w c name ∧
        l.toInt = (reads.stream.count newline : ℤ).bmod (2 ^ 32) ∧
        w.toInt = ((words blank reads.stream).length : ℤ).bmod (2 ^ 32) ∧
        c.toInt = (reads.stream.length : ℤ).bmod (2 ^ 32) ∧
        (reads.stream.length < 2 ^ 31 →
          l.toInt = reads.stream.count newline ∧
            w.toInt = (words blank reads.stream).length ∧ c.toInt = reads.stream.length)) ∧
      ∃ out, FirstLines textlines.toInt reads.stream out ∧
        ((∀ i < out.length, write i) → head write reads textlines = .ok out) ∧
        ∀ i < out.length, write i = false → (∀ j < i, write j) →
          head write reads textlines = .error (out.take i) := by
  refine ⟨fun hn => ?_, fun hn => ?_, upTo textlines 0 reads.stream, ?_, ?_, ?_⟩
  · rw [wc_eq, if_pos hn]
  · refine ⟨_, _, _, by rw [wc_eq, if_neg hn], Int32.toInt_ofNat', Int32.toInt_ofNat',
      Int32.toInt_ofNat', fun hlength => ⟨?_, ?_, Int32.toInt_ofNat_of_lt hlength⟩⟩
    · exact Int32.toInt_ofNat_of_lt (List.count_le_length.trans_lt hlength)
    · exact Int32.toInt_ofNat_of_lt ((length_words_le reads.stream).trans_lt hlength)
  · have hfirst := @firstLines_upTo textlines 0 reads.stream
    rwa [Int32.toInt_zero, Int.sub_zero] at hfirst
  · intro hwrite
    rw [head_eq, writeAll_ok (by simpa using hwrite), List.nil_append]
  · intro i hi hwrite hbefore
    rw [head_eq, writeAll_error hi (by simpa using hwrite) (by simpa using hbefore),
      List.nil_append]

/-- A stream of `k` full buffers of newlines. -/
def newlines (k : ℕ) : Reads where
  chunks := List.replicate k (List.replicate 512 newline)
  size chunk h := by
    rw [List.eq_of_mem_replicate h, List.length_replicate]
    omega
  n := 0
  ended := by decide

theorem count_newlines (k : ℕ) : (newlines k).stream.count newline = k * 512 := by
  rw [newlines, Reads.stream, List.count_flatten, List.map_replicate, List.sum_replicate_nat,
    List.count_replicate_self]

/-- With 2 ^ 31 newlines, the number of lines is printed as a negative number. -/
theorem wc_overflow : ¬ ∀ (reads : Reads) (name : List Byte), ¬ reads.n < 0 →
    ∃ l w c : Int32, wc reads name = .counts l w c name ∧
      l.toInt = reads.stream.count newline ∧ w.toInt = (words blank reads.stream).length ∧
      c.toInt = reads.stream.length := by
  intro h
  obtain ⟨l, w, c, hwc, hl, -⟩ := h (newlines (2 ^ 22)) [] (by decide : ¬ (0 : Int32) < 0)
  have hmax := Int32.toInt_lt l
  rw [count_newlines] at hl
  omega

end Xv6.Text
