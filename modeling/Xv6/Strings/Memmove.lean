import Mathlib.Algebra.Order.Ring.Int
import Mathlib.Algebra.Order.Ring.Nat
import Mathlib.Logic.Function.Basic

/-!
# Two versions of `memmove`

`string.c` copies from the end if the destination begins in the source.  `ulib.c` always copies
from the start, and then it reads bytes that it has written: the first `dst - src` bytes of the
source are repeated (`forward_behind`).

A memory gives a byte for each address.  The ranges do not wrap around, so addresses are natural
numbers.
-/

namespace Xv6.Strings

abbrev Byte := UInt8

abbrev Memory := ℕ → Byte

variable {mem : Memory} {d s n j a dst src : ℕ}

/-! ## The code -/

/-- `while(n-- > 0) *d++ = *s++;` -/
def forward (mem : Memory) (d s : ℕ) : ℕ → Memory
  | 0 => mem
  | n + 1 => forward (Function.update mem d (mem s)) (d + 1) (s + 1) n

/-- `while(n-- > 0) *--d = *--s;` -/
def backward (mem : Memory) (d s : ℕ) : ℕ → Memory
  | 0 => mem
  | n + 1 => backward (Function.update mem (d - 1) (mem (s - 1))) (d - 1) (s - 1) n

/-- `memmove` of `string.c` -/
def memmove (mem : Memory) (dst src n : ℕ) : Memory :=
  if src < dst ∧ src + n > dst then backward mem (dst + n) (src + n) n
  else forward mem dst src n

/-- `memmove` of `ulib.c`.  Nothing is copied if `n` is negative. -/
def User.memmove (mem : Memory) (vdst vsrc : ℕ) (n : ℤ) : Memory := forward mem vdst vsrc n.toNat

/-- What a memory is after the bytes have been moved. -/
def moved (mem : Memory) (dst src n : ℕ) : Memory := fun a =>
  if dst ≤ a ∧ a < dst + n then mem (src + (a - dst)) else mem a

/-! ## Copying from the start -/

theorem forward_of_out (h : a < d ∨ d + n ≤ a) : forward mem d s n a = mem a := by
  induction n generalizing mem d s with
  | zero => rfl
  | succ n ih => rw [forward, ih (by omega), Function.update_of_ne (by omega)]

/-- Towards the front, nothing is read that has been written. -/
theorem forward_ahead (hle : d ≤ s) (hj : j < n) : forward mem d s n (d + j) = mem (s + j) := by
  induction n generalizing mem d s j with
  | zero => exact absurd hj (Nat.not_lt_zero j)
  | succ n ih =>
      rw [forward]
      cases j with
      | zero =>
          rw [forward_of_out (Or.inl (by omega)), Nat.add_zero, Function.update_self, Nat.add_zero]
      | succ j =>
          have hnext := @ih (Function.update mem d (mem s)) (d + 1) (s + 1) j (by omega) (by omega)
          rw [Function.update_of_ne (by omega)] at hnext
          rwa [Nat.add_right_comm d, Nat.add_right_comm s] at hnext

/-- Towards the back, the first bytes are read again and again. -/
theorem forward_behind (hlt : s < d) (hj : j < n) :
    forward mem d s n (d + j) = mem (s + j % (d - s)) := by
  induction n generalizing mem d s j with
  | zero => exact absurd hj (Nat.not_lt_zero j)
  | succ n ih =>
      rw [forward]
      cases j with
      | zero =>
          rw [forward_of_out (Or.inl (by omega)), Nat.add_zero, Function.update_self, Nat.zero_mod,
            Nat.add_zero]
      | succ j =>
          have hnext := @ih (Function.update mem d (mem s)) (d + 1) (s + 1) j (by omega) (by omega)
          have hperiod : d + 1 - (s + 1) = d - s := Nat.add_sub_add_right d 1 s
          have hmod := Nat.mod_lt j (show 0 < d - s by omega)
          rw [hperiod, Nat.add_right_comm d] at hnext
          refine hnext.trans ?_
          by_cases hlast : j % (d - s) + 1 = d - s
          · -- here the byte that the first turn has written is read
            have hwritten : s + 1 + j % (d - s) = d := by omega
            have hfirst : (j + 1) % (d - s) = 0 := by
              rw [← Nat.mod_add_mod, hlast, Nat.mod_self]
            rw [hwritten, Function.update_self, hfirst, Nat.add_zero]
          · have hsucc : (j + 1) % (d - s) = j % (d - s) + 1 := by
              rw [← Nat.mod_add_mod, Nat.mod_eq_of_lt (by omega)]
            rw [Function.update_of_ne (by omega), hsucc]
            congr 1
            omega

/-! ## Copying from the end -/

theorem backward_of_out (h : a < d ∨ d + n ≤ a) : backward mem (d + n) (s + n) n a = mem a := by
  induction n generalizing mem with
  | zero => rfl
  | succ n ih =>
      rw [backward, Nat.add_succ_sub_one, Nat.add_succ_sub_one, ih (by omega),
        Function.update_of_ne (by omega)]

theorem backward_behind (hlt : s < d) (hj : j < n) :
    backward mem (d + n) (s + n) n (d + j) = mem (s + j) := by
  induction n generalizing mem with
  | zero => exact absurd hj (Nat.not_lt_zero j)
  | succ n ih =>
      rw [backward, Nat.add_succ_sub_one, Nat.add_succ_sub_one]
      by_cases hlast : j = n
      · rw [hlast, backward_of_out (Or.inr le_rfl), Function.update_self]
      · rw [ih (by omega), Function.update_of_ne (by omega)]

/-! ## Both functions -/

theorem eq_moved {mem' : Memory} (hin : ∀ j < n, mem' (dst + j) = mem (src + j))
    (hout : ∀ a, a < dst ∨ dst + n ≤ a → mem' a = mem a) : mem' = moved mem dst src n := by
  funext a
  by_cases ha : dst ≤ a ∧ a < dst + n
  · have hcopied := hin (a - dst) (by omega)
    rw [Nat.add_sub_cancel' ha.1] at hcopied
    rw [moved, if_pos ha, hcopied]
  · rw [moved, if_neg ha, hout a (by omega)]

theorem moved_add (hj : j < n) : moved mem dst src n (dst + j) = mem (src + j) := by
  rw [moved, if_pos (by omega), Nat.add_sub_cancel_left]

theorem memmove_eq_moved (mem : Memory) (dst src n : ℕ) :
    memmove mem dst src n = moved mem dst src n := by
  rw [memmove]
  split
  · rename_i hoverlap
    exact eq_moved (fun j hj => backward_behind hoverlap.1 hj) fun a ha => backward_of_out ha
  · rename_i hoverlap
    refine eq_moved (fun j hj => ?_) fun a ha => forward_of_out ha
    by_cases hlt : src < dst
    · -- the ranges are apart
      have happart : j < dst - src := by omega
      rw [forward_behind hlt hj, Nat.mod_eq_of_lt happart]
    · exact forward_ahead (by omega) hj

/-- The bytes of the source repeat, or the destination is not behind its start. -/
def Periodic (mem : Memory) (dst src n : ℕ) : Prop :=
  src < dst → ∀ j < n, mem (src + j) = mem (src + j % (dst - src))

theorem user_eq_moved_iff (mem : Memory) (dst src n : ℕ) :
    User.memmove mem dst src n = moved mem dst src n ↔ Periodic mem dst src n := by
  rw [User.memmove, Int.toNat_natCast]
  constructor
  · intro hmoved hlt j hj
    have hbyte := congrFun hmoved (dst + j)
    rw [forward_behind hlt hj, moved_add hj] at hbyte
    exact hbyte.symm
  · intro hperiodic
    refine eq_moved (fun j hj => ?_) fun a ha => forward_of_out ha
    by_cases hlt : src < dst
    · rw [forward_behind hlt hj]
      exact (hperiodic hlt j hj).symm
    · exact forward_ahead (by omega) hj

/-- The `memmove` of the kernel always moves the bytes.  The one of the user library does, and
agrees with it, exactly if the destination does not begin in the source or if the bytes of the
source repeat. -/
theorem memmove_copies (mem : Memory) (dst src n : ℕ) :
    memmove mem dst src n = moved mem dst src n ∧
      (User.memmove mem dst src n = moved mem dst src n ∧
        User.memmove mem dst src n = memmove mem dst src n ↔ Periodic mem dst src n) := by
  have hkernel := memmove_eq_moved mem dst src n
  refine ⟨hkernel, ?_⟩
  rw [hkernel, and_self]
  exact user_eq_moved_iff mem dst src n

/-- The bytes 1, 2, 3 at address 0 are moved by one. -/
theorem user_repeats_first_byte :
    ¬ ∀ (mem : Memory) (dst src n : ℕ), memmove mem dst src n = moved mem dst src n ∧
      User.memmove mem dst src n = moved mem dst src n ∧
      User.memmove mem dst src n = memmove mem dst src n := by
  intro h
  have hmoved := (h (fun a => UInt8.ofNat (a + 1)) 1 0 3).2.1
  exact absurd (congrFun hmoved 2) (by decide)

end Xv6.Strings
