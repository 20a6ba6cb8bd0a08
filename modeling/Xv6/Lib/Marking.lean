import Mathlib.Logic.Equiv.Basic
import Mathlib.Data.Nat.Notation

/-!
# Marked addresses

Places hold addresses (0 is no address), and a map of marks tells which addresses are
taken.  `Marked` is what an allocator and its clients keep together: no address is held
twice, all are in range, and marked are exactly those that are held.  A free address
may be taken for a place that holds none, what a place holds may be given back, and it may be moved
to a place that holds none.
-/

namespace Marking

variable {π : Type} [DecidableEq π]

structure Marked (lo hi : ℕ) (holds : π → ℕ) (mark : ℕ → Bool) : Prop where
  range : ∀ p, holds p ≠ 0 → lo ≤ holds p ∧ holds p < hi
  inj : ∀ p q, holds p ≠ 0 → holds p = holds q → p = q
  exact : ∀ a, lo ≤ a → a < hi → (mark a = true ↔ ∃ p, holds p = a)

variable {lo hi a : ℕ} {holds : π → ℕ} {mark : ℕ → Bool} {p : π}

namespace Marked

omit [DecidableEq π] in
theorem marked (h : Marked lo hi holds mark) (hp : holds p ≠ 0) : mark (holds p) = true :=
  (h.exact _ (h.range p hp).1 (h.range p hp).2).mpr ⟨p, rfl⟩

omit [DecidableEq π] in
/-- A free address is held nowhere. -/
theorem ne_of_free (h : Marked lo hi holds mark) (hpos : 0 < a) (hfree : mark a = false) (p : π) :
    holds p ≠ a := by
  rintro rfl
  rw [h.marked (by omega)] at hfree
  exact Bool.false_ne_true hfree.symm

theorem take (h : Marked lo hi holds mark) (hlo : 0 < lo) (ha : lo ≤ a ∧ a < hi)
    (hfree : mark a = false) (hp : holds p = 0) :
    Marked lo hi (Function.update holds p a) (Function.update mark a true) where
  range q hq := by
    by_cases heq : q = p
    · rw [heq, Function.update_self]
      exact ha
    · rw [Function.update_of_ne heq] at hq ⊢
      exact h.range q hq
  inj q r hq heq := by
    have hne := h.ne_of_free (by omega) hfree
    by_cases hqp : q = p <;> by_cases hrp : r = p
    · rw [hqp, hrp]
    · rw [hqp, Function.update_self, Function.update_of_ne hrp] at heq
      exact absurd heq.symm (hne r)
    · rw [hrp, Function.update_self, Function.update_of_ne hqp] at heq
      exact absurd heq (hne q)
    · rw [Function.update_of_ne hqp] at hq heq
      rw [Function.update_of_ne hrp] at heq
      exact h.inj q r hq heq
  exact b hlo' hhi := by
    by_cases hba : b = a
    · subst hba
      simp only [Function.update_self, true_iff]
      exact ⟨p, Function.update_self ..⟩
    · rw [Function.update_of_ne hba, h.exact b hlo' hhi]
      refine exists_congr fun q => ?_
      by_cases heq : q = p
      · rw [heq, Function.update_self, hp]
        omega
      · rw [Function.update_of_ne heq]

theorem give (h : Marked lo hi holds mark) (hlo : 0 < lo) (hp : holds p ≠ 0) :
    Marked lo hi (Function.update holds p 0) (Function.update mark (holds p) false) where
  range q hq := by
    by_cases heq : q = p
    · rw [heq, Function.update_self] at hq
      exact absurd rfl hq
    · rw [Function.update_of_ne heq] at hq ⊢
      exact h.range q hq
  inj q r hq heq := by
    by_cases hqp : q = p
    · rw [hqp, Function.update_self] at hq
      exact absurd rfl hq
    rw [Function.update_of_ne hqp] at hq heq
    by_cases hrp : r = p
    · rw [hrp, Function.update_self] at heq
      exact absurd heq hq
    · rw [Function.update_of_ne hrp] at heq
      exact h.inj q r hq heq
  exact b hlo' hhi := by
    by_cases hb : b = holds p
    · subst hb
      simp only [Function.update_self, Bool.false_eq_true, false_iff, not_exists]
      intro q hq
      by_cases heq : q = p
      · rw [heq, Function.update_self] at hq
        exact hp hq.symm
      · rw [Function.update_of_ne heq] at hq
        exact heq (h.inj q p (by omega) hq)
    · rw [Function.update_of_ne hb, h.exact b hlo' hhi]
      refine exists_congr fun q => ?_
      by_cases heq : q = p
      · rw [heq, Function.update_self]
        exact ⟨fun hq => absurd hq.symm hb, fun hzero => by omega⟩
      · rw [Function.update_of_ne heq]

omit [DecidableEq π] in
/-- The places are renamed. -/
theorem comp (h : Marked lo hi holds mark) (e : π ≃ π) : Marked lo hi (holds ∘ e) mark where
  range p hp := h.range (e p) hp
  inj p q hp heq := e.injective (h.inj (e p) (e q) hp heq)
  exact a hlo hhi := by
    rw [h.exact a hlo hhi]
    constructor
    · rintro ⟨p, hp⟩
      exact ⟨e.symm p, by rw [Function.comp_apply, e.apply_symm_apply, hp]⟩
    · exact fun ⟨p, hp⟩ => ⟨e p, hp⟩

/-- What `q` holds goes to a place that holds nothing. -/
theorem move {q : π} (h : Marked lo hi holds mark) (hne : p ≠ q) (hp : holds p = 0) :
    Marked lo hi (Function.update (Function.update holds q 0) p (holds q)) mark := by
  have hswap : Function.update (Function.update holds q 0) p (holds q) =
      holds ∘ Equiv.swap p q := by
    funext r
    by_cases hrp : r = p
    · rw [hrp, Function.update_self, Function.comp_apply, Equiv.swap_apply_left]
    by_cases hrq : r = q
    · rw [hrq, Function.update_of_ne hne.symm, Function.update_self, Function.comp_apply,
        Equiv.swap_apply_right, hp]
    · rw [Function.update_of_ne hrp, Function.update_of_ne hrq, Function.comp_apply,
        Equiv.swap_apply_of_ne_of_ne hrp hrq]
  rw [hswap]
  exact h.comp _

omit [DecidableEq π] in
/-- There are more places, which hold nothing. -/
theorem sum_zero {ρ : Type} (h : Marked lo hi holds mark) (hlo : 0 < lo) :
    Marked lo hi (Sum.elim holds fun _ : ρ => 0) mark where
  range p hp := by
    cases p with
    | inl p => exact h.range p hp
    | inr r => exact absurd rfl hp
  inj p q hp heq := by
    cases p with
    | inr r => exact absurd rfl hp
    | inl p =>
        cases q with
        | inl q => exact congrArg Sum.inl (h.inj p q hp heq)
        | inr r => exact absurd heq hp
  exact a hle hhi := by
    rw [h.exact a hle hhi]
    constructor
    · exact fun ⟨p, hp⟩ => ⟨.inl p, hp⟩
    · rintro ⟨p | r, hp⟩
      · exact ⟨p, hp⟩
      · have hzero : (0 : ℕ) = a := hp
        omega

omit [DecidableEq π] in
/-- Places are left out that hold nothing. -/
theorem of_sum {ρ : Type} {other : ρ → ℕ} (h : Marked lo hi (Sum.elim holds other) mark)
    (hlo : 0 < lo) (hzero : ∀ r, other r = 0) : Marked lo hi holds mark where
  range p hp := h.range (.inl p) hp
  inj p q hp heq := Sum.inl.inj (h.inj (.inl p) (.inl q) hp heq)
  exact a hle hhi := by
    rw [h.exact a hle hhi]
    constructor
    · rintro ⟨p | r, hp⟩
      · exact ⟨p, hp⟩
      · have hother : other r = a := hp
        rw [hzero] at hother
        omega
    · exact fun ⟨p, hp⟩ => ⟨.inl p, hp⟩

end Marked

end Marking
