import Xv6.Console.Input
import Xv6.Lib.Transition

/-!
# The console and its readers

Any number of calls of `consoleread`, and interrupts that bring characters.  What is done
under `cons.lock` is one step: an interrupt with all its characters, and a reader from the
point where it gets the lock to the one where it returns or sleeps.  A reader tests
`killed` only at the end of such a step.

The `Transcript` of a run says what it should have done: it edits the line as the line
discipline prescribes, without looking at the buffer, and logs which call took which
character.
-/

namespace Xv6.Console

open Transition RingBuffer

/-- A call of `consoleread`.  It asked for `target` bytes, and `n` of them are missing. -/
inductive Call where
  | idle
  | waiting (awake : Bool) (target n : ℕ) (dst : List UInt8)
  | returned (target n : ℕ) (dst : List UInt8)
  | failed (dst : List UInt8)
  deriving DecidableEq

/-- The console and all calls, each of which is made once. -/
structure Terminal (P : Type) where
  input : Input
  call : P → Call
  killed : P → Bool

/-- A negative number of bytes is the same as none. -/
inductive Action (P : Type)
  | intr (cs : List UInt8)
  | read (p : P) (n : ℕ)
  | resume (p : P)
  | kill (p : P)

def Section.call (target : ℕ) : Section → Call
  | .ret n dst => .returned target n dst
  | .failed dst => .failed dst
  | .sleep n dst => .waiting false target n dst

def Call.wake : Call → Call
  | .waiting _ target n dst => .waiting true target n dst
  | call => call

namespace Terminal

variable {P : Type} [DecidableEq P]

/-- A reader has got `cons.lock`. -/
def enter (s : Terminal P) (p : P) (target n : ℕ) (dst : List UInt8) : Terminal P :=
  let (input, result) := readLoop (s.killed p) target n dst s.input
  { s with input, call := Function.update s.call p (result.call target) }

def step (s : Terminal P) : Action P → Outcome (Terminal P)
  | .intr cs =>
      let (input, woke) := consoleintr s.input cs
      .next { s with input, call := fun p => if woke then (s.call p).wake else s.call p }
  | .read p n =>
      match s.call p with
      | .idle => .next (s.enter p n n [])
      | _ => .blocked
  | .resume p =>
      match s.call p with
      | .waiting true target n dst => .next (s.enter p target n dst)
      | _ => .blocked
  | .kill p =>
      .next { s with
        killed := Function.update s.killed p true
        call := Function.update s.call p (s.call p).wake }

/-- `input` is zero when the machine starts. -/
def boot (P : Type) : Terminal P where
  input := { buf := fun _ => 0, r := 0, w := 0, e := 0 }
  call _ := .idle
  killed _ := false

end Terminal

/-! ## The line discipline -/

/-- What has been committed, the line behind it, and who has read what. -/
structure Transcript (P : Type) where
  committed : List UInt8
  line : List UInt8
  log : List (P × UInt8)

namespace Transcript

variable {P : Type}

/-- The committed characters that nobody has read. -/
def unread (h : Transcript P) : List UInt8 := h.committed.drop h.log.length

/-- A line that ends is committed. -/
def append (h : Transcript P) (c : UInt8) : Transcript P :=
  if c = newline ∨ c = C 'D' ∨ (h.unread ++ h.line).length + 1 = INPUT_BUF then
    { h with committed := h.committed ++ (h.line ++ [c]), line := [] }
  else { h with line := h.line ++ [c] }

def type (h : Transcript P) (c : UInt8) : Transcript P :=
  if c = C 'P' then h
  else if c = C 'U' then { h with line := [] }
  else if c = C 'H' ∨ c = DEL then { h with line := h.line.dropLast }
  else if c ≠ 0 ∧ (h.unread ++ h.line).length < INPUT_BUF then
    h.append (if c = carriageReturn then newline else c)
  else h

/-- Call `p` has read `cs`. -/
def take (h : Transcript P) (p : P) (cs : List UInt8) : Transcript P :=
  { h with log := h.log ++ cs.map (p, ·) }

/-- What call `p` has read. -/
def of [DecidableEq P] (h : Transcript P) (p : P) : List UInt8 :=
  (h.log.filter fun entry => entry.1 = p).map Prod.snd

/-- A step that moves `r` reads the characters that it moves over. -/
def record (h : Transcript P) (s : Terminal P) : Action P → Terminal P → Transcript P
  | .intr cs, _ => cs.foldl type h
  | .read p _, t | .resume p, t =>
      h.take p (content s.input.buf s.input.r (filled s.input.r t.input.r))
  | .kill _, _ => h

def empty (P : Type) : Transcript P where
  committed := []
  line := []
  log := []

end Transcript

/-! ## What typing does -/

variable {P : Type} {h : Transcript P} {input : Input}

/-- The buffer is what the transcript says. -/
structure Agrees (s : Input) (h : Transcript P) : Prop where
  holds : Holds s h.unread h.line
  inner : newline ∉ h.line
  read : h.log.map Prod.snd ++ h.unread = h.committed

theorem Agrees.append (hagrees : Agrees input h)
    (hroom : (h.unread ++ h.line).length < INPUT_BUF) (c : UInt8) :
    Agrees (if c = newline ∨ c = C 'D' ∨ (input.put c).e = (input.put c).r + UInt32.ofNat INPUT_BUF
      then { input.put c with w := (input.put c).e } else input.put c) (h.append c) := by
  have hput := hagrees.holds.put hroom c
  have hfull : (input.put c).e = (input.put c).r + UInt32.ofNat INPUT_BUF ↔
      (h.unread ++ h.line).length + 1 = INPUT_BUF := by
    rw [← filled_eq_iff (by decide), hput.edited]
    simp [← List.append_assoc]
  have hread := congrArg List.length hagrees.read
  rw [List.length_append, List.length_map] at hread
  unfold Transcript.append
  by_cases hcommit : c = newline ∨ c = C 'D' ∨ (h.unread ++ h.line).length + 1 = INPUT_BUF
  · rw [if_pos hcommit, if_pos (by rwa [hfull])]
    have hunread : Transcript.unread
        { h with committed := h.committed ++ (h.line ++ [c]), line := [] } =
        h.unread ++ (h.line ++ [c]) := by
      simp only [Transcript.unread]
      rw [List.drop_append_of_le_length (by omega)]
    refine ⟨?_, by simp, ?_⟩
    · rw [hunread]
      exact hput.commit
    · rw [hunread, ← List.append_assoc]
      exact congrArg (· ++ (h.line ++ [c])) hagrees.read
  · rw [if_neg hcommit, if_neg (by rwa [hfull])]
    refine ⟨hput, ?_, hagrees.read⟩
    rw [List.mem_append, List.mem_singleton, not_or]
    exact ⟨hagrees.inner, fun heq => hcommit (Or.inl heq.symm)⟩

theorem Agrees.type (hagrees : Agrees input h) (c : UInt8) :
    Agrees (type input c).1 (h.type c) := by
  have hholds := hagrees.holds
  unfold Console.type Transcript.type
  by_cases hP : c = C 'P'
  · rwa [if_pos hP, if_pos hP]
  rw [if_neg hP, if_neg hP]
  by_cases hU : c = C 'U'
  · rw [if_pos hU, if_pos hU, hholds.filled_line]
    exact ⟨hholds.killLine hagrees.inner, by simp, hagrees.read⟩
  rw [if_neg hU, if_neg hU]
  by_cases hH : c = C 'H' ∨ c = DEL
  · rw [if_pos hH, if_pos hH]
    rcases List.eq_nil_or_concat h.line with hnil | ⟨line, x, hline⟩
    · rw [if_neg (by simpa using hholds.e_eq_w_iff.mpr hnil)]
      exact ⟨by rwa [hnil] at hholds ⊢, by simp [hnil], hagrees.read⟩
    · rw [List.concat_eq_append] at hline
      rw [hline] at hholds
      have hne : input.e ≠ input.w := fun heq => by simpa using hholds.e_eq_w_iff.mp heq
      rw [if_pos hne]
      refine ⟨?_, ?_, hagrees.read⟩
      · show Holds _ h.unread h.line.dropLast
        rw [hline, List.dropLast_concat]
        exact hholds.last.2
      · exact fun hmem => hagrees.inner (List.dropLast_subset _ hmem)
  rw [if_neg hH, if_neg hH]
  have hroom : input.e - input.r < UInt32.ofNat INPUT_BUF ↔
      (h.unread ++ h.line).length < INPUT_BUF := by
    rw [← hholds.edited]
    exact UInt32.lt_iff_toNat_lt
  by_cases hc : c ≠ 0 ∧ (h.unread ++ h.line).length < INPUT_BUF
  · rw [if_pos hc, if_pos (by rwa [hroom])]
    dsimp only
    generalize (if c = carriageReturn then newline else c) = d
    have happend := hagrees.append hc.2 d
    split
    · rename_i hcommit
      rwa [if_pos hcommit] at happend
    · rename_i hcommit
      rwa [if_neg hcommit] at happend
  · rw [if_neg hc, if_neg (by rwa [hroom])]
    exact hagrees

theorem Agrees.consoleintr (hagrees : Agrees input h) (cs : List UInt8) :
    Agrees (consoleintr input cs).1 (cs.foldl Transcript.type h) := by
  unfold Console.consoleintr
  generalize false = woke
  induction cs generalizing input h woke with
  | nil => exact hagrees
  | cons c cs ih => exact ih (hagrees.type c) _

end Xv6.Console
