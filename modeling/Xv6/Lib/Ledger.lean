import Mathlib.Data.List.Nodup
import Mathlib.Logic.Function.Basic

/-!
# Ledgers of exclusively held resources

`holds e` is the resource that holder `e` has, if any, and `used` lists the
resources that are not free.  `Exclusive` says that no two holders have the same
resource and that what is held is not free.  The rules follow what a program
does with resources: allocate one (`gain`), free one that it holds (`drop`), and
hand one on or forget it (`map`).
-/

namespace Ledger

variable {η α : Type*} {holds holds' : η → Option α} {used : List α} {e e' : η} {x : α}

structure Exclusive (holds : η → Option α) (used : List α) : Prop where
  unique : ∀ e e' x, holds e = some x → holds e' = some x → e = e'
  listed : ∀ e x, holds e = some x → x ∈ used
  nodup : used.Nodup

namespace Exclusive

/-- Every resource held afterwards was held before by the holder that `σ` names. -/
theorem map (h : Exclusive holds used) (σ : η → η) (hσ : Function.Injective σ)
    (hholds : ∀ e x, holds' e = some x → holds (σ e) = some x) : Exclusive holds' used where
  unique e e' x he he' := hσ (h.unique (σ e) (σ e') x (hholds e x he) (hholds e' x he'))
  listed e x he := h.listed (σ e) x (hholds e x he)
  nodup := h.nodup

theorem mono (h : Exclusive holds used) (hholds : ∀ e x, holds' e = some x → holds e = some x) :
    Exclusive holds' used :=
  h.map id Function.injective_id hholds

theorem ne_of_ne (h : Exclusive holds used) (hne : e ≠ e') (he : holds e = some x) :
    holds e' ≠ some x :=
  fun he' => hne (h.unique e e' x he he')

/-- A holder takes a resource that was free. -/
theorem gain (h : Exclusive holds used) (hfresh : x ∉ used) (e : η)
    (hself : ∀ y, holds' e = some y → y = x)
    (hother : ∀ e' y, e' ≠ e → holds' e' = some y → holds e' = some y) :
    Exclusive holds' (x :: used) := by
  -- a holding is the new one, or an old one of something else
  have hcases : ∀ e' y, holds' e' = some y →
      e' = e ∧ y = x ∨ e' ≠ e ∧ holds e' = some y ∧ y ≠ x := by
    intro e' y hy
    by_cases he : e' = e
    · subst he
      exact Or.inl ⟨rfl, hself y hy⟩
    · have hbefore := hother e' y he hy
      refine Or.inr ⟨he, hbefore, ?_⟩
      rintro rfl
      exact hfresh (h.listed e' y hbefore)
  constructor
  case unique =>
    intro e₁ e₂ y h₁ h₂
    rcases hcases e₁ y h₁ with ⟨he₁, hy₁⟩ | ⟨-, h₁, hy₁⟩ <;>
      rcases hcases e₂ y h₂ with ⟨he₂, hy₂⟩ | ⟨-, h₂, hy₂⟩
    · rw [he₁, he₂]
    · exact absurd hy₁ hy₂
    · exact absurd hy₂ hy₁
    · exact h.unique e₁ e₂ y h₁ h₂
  case listed =>
    intro e' y hy
    rcases hcases e' y hy with ⟨-, rfl⟩ | ⟨-, hbefore, -⟩
    · exact List.mem_cons_self
    · exact List.mem_cons_of_mem _ (h.listed e' y hbefore)
  case nodup => exact List.nodup_cons.mpr ⟨hfresh, h.nodup⟩

/-- A holder frees what it has. -/
theorem drop [DecidableEq α] (h : Exclusive holds used) (he : holds e = some x)
    (hself : holds' e = none)
    (hother : ∀ e' y, e' ≠ e → holds' e' = some y → holds e' = some y) :
    Exclusive holds' (used.erase x) := by
  have hbefore : ∀ e' y, holds' e' = some y → holds e' = some y ∧ y ≠ x := by
    intro e' y hy
    have hne : e' ≠ e := by
      rintro rfl
      simp [hself] at hy
    have hheld := hother e' y hne hy
    refine ⟨hheld, ?_⟩
    rintro rfl
    exact h.ne_of_ne hne hheld he
  constructor
  case unique =>
    intro e₁ e₂ y h₁ h₂
    exact h.unique e₁ e₂ y (hbefore e₁ y h₁).1 (hbefore e₂ y h₂).1
  case listed =>
    intro e' y hy
    obtain ⟨hheld, hne⟩ := hbefore e' y hy
    exact (List.mem_erase_of_ne hne).mpr (h.listed e' y hheld)
  case nodup => exact h.nodup.erase x

/-- Freeing a resource takes it off the list for good. -/
theorem not_mem_erase [DecidableEq α] (h : Exclusive holds used) : x ∉ used.erase x :=
  h.nodup.not_mem_erase

end Exclusive

end Ledger
