import Xv6.Files.Disk

/-!
# Names in directories

`strncmp` and `strncpy` of `string.c`.  A name in a directory has `DIRSIZ` bytes, and those
after a NUL do not count.  A name of `DIRSIZ` bytes or more has no NUL there.
-/

namespace Xv6.Files

variable {n i k : ℕ} {p q s t : ℕ → Byte}

def DIRSIZ : ℕ := 14

/-! ## `string.c` -/

def strncmp (p q : ℕ → Byte) : ℕ → ℤ
  | 0 => 0
  | n + 1 =>
      if p 0 ≠ 0 ∧ p 0 = q 0 then strncmp (fun i => p (i + 1)) (fun i => q (i + 1)) n
      else ((p 0).toNat : ℤ) - (q 0).toNat

/-- The second loop of `strncpy`, at index `i`: the rest is cleared. -/
def padFrom (s : ℕ → Byte) (i : ℕ) : ℕ → ℕ → Byte
  | 0 => s
  | n + 1 => padFrom (Function.update s i 0) (i + 1) n

/-- The first loop of `strncpy`, at index `i`. -/
def copyFrom (s t : ℕ → Byte) (i : ℕ) : ℕ → ℕ → Byte
  | 0 => s
  | n + 1 =>
      if t i ≠ 0 then copyFrom (Function.update s i (t i)) t (i + 1) n
      else padFrom (Function.update s i (t i)) (i + 1) n

/-- The array `s` after `strncpy(s, t, n)`. -/
def strncpy (s t : ℕ → Byte) (n : ℕ) : ℕ → Byte := copyFrom s t 0 n

def namecmp (s t : ℕ → Byte) : ℤ := strncmp s t DIRSIZ

/-! ## What is compared -/

/-- The bytes that count of the `n` bytes from `p` on. -/
def bytesUpTo (n : ℕ) (p : ℕ → Byte) : List Byte := ((List.range n).map p).takeWhile (· ≠ 0)

/-- The name as it is in a directory. -/
def key (p : ℕ → Byte) : List Byte := bytesUpTo DIRSIZ p

theorem bytesUpTo_zero : bytesUpTo 0 p = [] := rfl

theorem bytesUpTo_succ : bytesUpTo (n + 1) p =
    if p 0 ≠ 0 then p 0 :: bytesUpTo n (fun i => p (i + 1)) else [] := by
  have hrange : (List.range (n + 1)).map p = p 0 :: (List.range n).map fun i => p (i + 1) := by
    rw [List.range_succ_eq_map, List.map_cons, List.map_map]
    rfl
  rw [bytesUpTo, hrange]
  by_cases hzero : p 0 = 0
  · rw [if_neg (by simpa using hzero), List.takeWhile_cons_of_neg (by simpa using hzero)]
  · rw [if_pos hzero, List.takeWhile_cons_of_pos (by simpa using hzero), bytesUpTo]

/-- Only the bytes before a NUL are looked at. -/
theorem bytesUpTo_congr (h : ∀ i < n, (∀ j < i, p j ≠ 0) → q i = p i) :
    bytesUpTo n q = bytesUpTo n p := by
  induction n generalizing p q with
  | zero => rfl
  | succ n ih =>
      have hfirst : q 0 = p 0 := h 0 (Nat.succ_pos n) fun j hj => absurd hj (Nat.not_lt_zero j)
      rw [bytesUpTo_succ, bytesUpTo_succ, hfirst]
      by_cases hzero : p 0 = 0
      · rw [if_neg (by simpa using hzero), if_neg (by simpa using hzero)]
      · rw [if_pos hzero, if_pos hzero]
        congr 1
        refine ih fun i hi hbefore => h (i + 1) (Nat.succ_lt_succ hi) fun j hj => ?_
        cases j with
        | zero => exact hzero
        | succ j => exact hbefore j (Nat.lt_of_succ_lt_succ hj)

theorem strncmp_eq_zero : strncmp p q n = 0 ↔ bytesUpTo n p = bytesUpTo n q := by
  induction n generalizing p q with
  | zero => simp [strncmp, bytesUpTo]
  | succ n ih =>
      rw [strncmp, bytesUpTo_succ, bytesUpTo_succ]
      by_cases hsame : p 0 = q 0
      · by_cases hzero : p 0 = 0
        · rw [if_neg fun h => h.1 hzero, if_neg (by simpa using hzero),
            if_neg (by rw [← hsame]; simpa using hzero), hsame]
          simp
        · rw [if_pos ⟨hzero, hsame⟩, if_pos hzero, if_pos (hsame ▸ hzero), ih, hsame]
          simp
      · rw [if_neg fun h => hsame h.2]
        have hdiff : ((p 0).toNat : ℤ) - (q 0).toNat ≠ 0 := by
          intro hzero
          refine hsame (UInt8.toNat_inj.mp ?_)
          omega
        refine iff_of_false hdiff fun heq => ?_
        by_cases hp : p 0 = 0 <;> by_cases hq : q 0 = 0
        · exact hsame (hp.trans hq.symm)
        · rw [if_neg (by simpa using hp), if_pos hq] at heq
          simp at heq
        · rw [if_pos hp, if_neg (by simpa using hq)] at heq
          simp at heq
        · rw [if_pos hp, if_pos hq, List.cons.injEq] at heq
          exact hsame heq.1

theorem namecmp_eq_zero : namecmp p q = 0 ↔ key p = key q := strncmp_eq_zero

/-! ## What is stored -/

theorem padFrom_of_out (h : k < i ∨ i + n ≤ k) : padFrom s i n k = s k := by
  induction n generalizing s i with
  | zero => rfl
  | succ n ih => rw [padFrom, ih (by omega), Function.update_of_ne (by omega)]

theorem copyFrom_of_lt (h : k < i) : copyFrom s t i n k = s k := by
  induction n generalizing s i with
  | zero => rfl
  | succ n ih =>
      rw [copyFrom]
      split
      · rw [ih (by omega), Function.update_of_ne (by omega)]
      · rw [padFrom_of_out (by omega), Function.update_of_ne (by omega)]

/-- Up to the first NUL, and this one too, the bytes are copied. -/
theorem copyFrom_of_before (hlo : i ≤ k) (hhi : k < i + n) (h : ∀ j, i ≤ j → j < k → t j ≠ 0) :
    copyFrom s t i n k = t k := by
  induction n generalizing s i with
  | zero => omega
  | succ n ih =>
      by_cases heq : k = i
      · subst heq
        rw [copyFrom]
        split
        · rw [copyFrom_of_lt (Nat.lt_succ_self k), Function.update_self]
        · rw [padFrom_of_out (Or.inl (Nat.lt_succ_self k)), Function.update_self]
      · rw [copyFrom, if_pos (h i le_rfl (by omega))]
        exact ih (by omega) (by omega) fun j hj => h j (by omega)

/-- The stored name is the name. -/
theorem key_strncpy : key (strncpy s t DIRSIZ) = key t :=
  bytesUpTo_congr fun i hi hbefore =>
    copyFrom_of_before (Nat.zero_le i) (by omega) fun j _ hj => hbefore j hj

end Xv6.Files
