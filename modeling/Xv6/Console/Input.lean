import Xv6.Lib.RingBuffer
import Mathlib.Data.List.Induction

/-!
# The input buffer of the console

`input` of `console.c` with the body of the loop of `consoleintr` (`type`) and the loop
of `consoleread`.  Both run under `cons.lock`, the reader's up to the point where it
returns or goes to sleep.  What is typed is also shown on the screen, which is left out.

The three counters stand for two lists: the characters that readers may have (`unread`)
and the line that is still being edited (`Holds`).  Typing and reading a character
change these lists as the line discipline says.
-/

namespace Xv6.Console

open RingBuffer

def INPUT_BUF : ℕ := 128

instance : NeZero INPUT_BUF := ⟨by decide⟩

/-- Control-x. -/
def C (x : Char) : UInt8 := UInt8.ofNat (x.toNat - '@'.toNat)

def newline : UInt8 := 10

def carriageReturn : UInt8 := 13

def DEL : UInt8 := 0x7f

structure Input where
  buf : Fin INPUT_BUF → UInt8
  r : UInt32
  w : UInt32
  e : UInt32

/-- `input.buf[i % INPUT_BUF]` -/
def Input.at (s : Input) (i : UInt32) : UInt8 := s.buf (slot INPUT_BUF i)

/-! ## The editor -/

/-- The loop of Control-U, which ends after `e - w` rounds at the latest. -/
def killLine : ℕ → Input → Input
  | 0, s => s
  | n + 1, s =>
      if s.e ≠ s.w ∧ s.at (s.e - 1) ≠ newline then killLine n { s with e := s.e - 1 } else s

/-- `input.buf[input.e++ % INPUT_BUF] = c` -/
def Input.put (s : Input) (c : UInt8) : Input :=
  { s with buf := Function.update s.buf (slot INPUT_BUF s.e) c, e := s.e + 1 }

/-- One character from `getc`, and whether it wakes up the readers. -/
def type (s : Input) (c : UInt8) : Input × Bool :=
  if c = C 'P' then (s, false)
  else if c = C 'U' then (killLine (filled s.w s.e) s, false)
  else if c = C 'H' ∨ c = DEL then
    (if s.e ≠ s.w then { s with e := s.e - 1 } else s, false)
  else if c ≠ 0 ∧ s.e - s.r < UInt32.ofNat INPUT_BUF then
    let c := if c = carriageReturn then newline else c
    let s := s.put c
    if c = newline ∨ c = C 'D' ∨ s.e = s.r + UInt32.ofNat INPUT_BUF then
      ({ s with w := s.e }, true)
    else (s, false)
  else (s, false)

def consoleintr (s : Input) (cs : List UInt8) : Input × Bool :=
  cs.foldl (fun sw c => ((type sw.1 c).1, sw.2 || (type sw.1 c).2)) (s, false)

/-! ## The reader -/

/-- How a reader gives up `cons.lock`: it returns with `n` bytes missing, it returns `-1`, or it
sleeps. -/
inductive Section where
  | ret (n : ℕ) (dst : List UInt8)
  | failed (dst : List UInt8)
  | sleep (n : ℕ) (dst : List UInt8)
  deriving DecidableEq

/-- The loop of `consoleread`, from the point where the reader has `cons.lock`. -/
def readLoop (killed : Bool) (target : ℕ) : ℕ → List UInt8 → Input → Input × Section
  | 0, dst, s => (s, .ret 0 dst)
  | n + 1, dst, s =>
      if s.r = s.w then (s, if killed then .failed dst else .sleep (n + 1) dst)
      else
        let c := s.at s.r
        let s := { s with r := s.r + 1 }
        if c = C 'D' then
          if n + 1 < target then ({ s with r := s.r - 1 }, .ret (n + 1) dst)
          else (s, .ret (n + 1) dst)
        else if c = newline then (s, .ret n (dst ++ [c]))
        else readLoop killed target n (dst ++ [c]) s

/-! ## What the buffer holds -/

variable {s : Input} {unread line dst : List UInt8} {c : UInt8} {n target : ℕ} {killed : Bool}

/-- The committed characters that are not yet read, and the line behind them. -/
structure Holds (s : Input) (unread line : List UInt8) : Prop where
  committed : filled s.r s.w = unread.length
  edited : filled s.r s.e = (unread ++ line).length
  content : content s.buf s.r (unread ++ line).length = unread ++ line
  bound : (unread ++ line).length ≤ INPUT_BUF

theorem dvd_wrap : INPUT_BUF ∣ 2 ^ 32 := by decide

theorem Holds.lt (h : Holds s unread line) : (unread ++ line).length < 2 ^ 32 :=
  lt_of_le_of_lt h.bound (by decide)

/-- The counters as distances from `r`. -/
theorem Holds.w_eq (h : Holds s unread line) : s.w = s.r + UInt32.ofNat unread.length :=
  (filled_eq_iff (lt_of_le_of_lt (by simp) h.lt)).mp h.committed

theorem Holds.e_eq (h : Holds s unread line) :
    s.e = s.r + UInt32.ofNat (unread ++ line).length :=
  (filled_eq_iff h.lt).mp h.edited

theorem Holds.filled_line (h : Holds s unread line) : filled s.w s.e = line.length := by
  have hlt := h.lt
  rw [List.length_append] at hlt
  rw [filled_eq_iff (by omega), h.e_eq, h.w_eq, List.length_append, UInt32.ofNat_add,
    UInt32.add_assoc]

theorem Holds.e_eq_w_iff (h : Holds s unread line) : s.e = s.w ↔ line = [] := by
  rw [eq_comm, ← filled_eq_zero_iff, h.filled_line, List.length_eq_zero_iff]

theorem Holds.r_eq_w_iff (h : Holds s unread line) : s.r = s.w ↔ unread = [] := by
  rw [← filled_eq_zero_iff, h.committed, List.length_eq_zero_iff]

/-- The cell before the edit index holds the last character of the line. -/
theorem Holds.last (h : Holds s unread (line ++ [c])) :
    s.at (s.e - 1) = c ∧ Holds { s with e := s.e - 1 } unread line := by
  have hlength : (unread ++ (line ++ [c])).length = (unread ++ line).length + 1 := by simp; omega
  have he : s.e - 1 = s.r + UInt32.ofNat (unread ++ line).length := by
    rw [h.e_eq, hlength, UInt32.ofNat_add, ← UInt32.add_assoc]
    exact UInt32.add_sub_cancel _ _
  have hcontent := h.content
  rw [hlength, content_succ, ← List.append_assoc] at hcontent
  obtain ⟨hinit, hlast⟩ := List.append_inj' hcontent rfl
  refine ⟨?_, h.committed, ?_, hinit, ?_⟩
  · rw [Input.at, he]
    exact (List.cons.inj hlast).1
  · show filled s.r (s.e - 1) = _
    rw [he]
    have hlt := h.lt
    exact (filled_eq_iff (by omega)).mpr rfl
  · have hbound := h.bound
    omega

theorem killLine_frame (n : ℕ) (s : Input) :
    (killLine n s).buf = s.buf ∧ (killLine n s).r = s.r ∧ (killLine n s).w = s.w := by
  induction n generalizing s with
  | zero => exact ⟨rfl, rfl, rfl⟩
  | succ n ih =>
      rw [killLine]
      split
      · exact ih { s with e := s.e - 1 }
      · exact ⟨rfl, rfl, rfl⟩

/-- Control-U removes the whole line. -/
theorem Holds.killLine (h : Holds s unread line) (hline : newline ∉ line) :
    Holds (killLine line.length s) unread [] := by
  induction line using List.reverseRecOn generalizing s with
  | nil => exact h
  | append_singleton line c ih =>
      obtain ⟨hlast, hrest⟩ := h.last
      have hne : s.e ≠ s.w := fun heq => by simpa using h.e_eq_w_iff.mp heq
      have hc : s.at (s.e - 1) ≠ newline := by
        rw [hlast]
        rintro rfl
        simp at hline
      rw [List.length_append, List.length_singleton, Console.killLine, if_pos ⟨hne, hc⟩]
      exact ih hrest fun hmem => hline (List.mem_append_left _ hmem)

/-- A character is put behind the line. -/
theorem Holds.put (h : Holds s unread line) (hroom : (unread ++ line).length < INPUT_BUF)
    (c : UInt8) : Holds (s.put c) unread (line ++ [c]) := by
  have hlength : (unread ++ (line ++ [c])).length = (unread ++ line).length + 1 := by simp; omega
  refine ⟨h.committed, ?_, ?_, by omega⟩
  · rw [hlength, ← h.edited]
    have hlt : INPUT_BUF < 2 ^ 32 := by decide
    exact filled_push rfl (by rw [h.edited]; omega)
  · rw [hlength, ← List.append_assoc]
    show RingBuffer.content (Function.update s.buf (slot INPUT_BUF s.e) c) s.r _ = _
    rw [content_push dvd_wrap h.edited hroom, h.content]

/-- The line becomes readable. -/
theorem Holds.commit (h : Holds s unread line) : Holds { s with w := s.e } (unread ++ line) [] := by
  refine ⟨h.edited, ?_, ?_, ?_⟩
  · rw [List.append_nil]
    exact h.edited
  · rw [List.append_nil]
    exact h.content
  · rw [List.append_nil]
    exact h.bound

/-- A committed character is taken. -/
theorem Holds.take (h : Holds s (c :: unread) line) :
    s.at s.r = c ∧ Holds { s with r := s.r + 1 } unread line := by
  have hcontent := h.content
  rw [List.cons_append, List.length_cons, content_pop] at hcontent
  obtain ⟨hfirst, hrest⟩ := List.cons.inj hcontent
  have hbound := h.bound
  rw [List.cons_append, List.length_cons] at hbound
  exact ⟨hfirst, filled_pop h.committed, filled_pop h.edited, hrest, by omega⟩

end Xv6.Console
