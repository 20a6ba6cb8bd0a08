import Mathlib.Computability.Language

/-!
# Words of a language at the start of a text

`Ahead l final text`: some start of the text is in the language, and it is the whole text
if `final`.  There is one rule for each way in which the language begins.
-/

namespace Prefix

open Computability

variable {α : Type} {l : Language α} {p : α → Prop} {final : Prop} {text : List α}

/-- The words of one letter. -/
def letter (p : α → Prop) : Language α := {w | ∃ x, p x ∧ w = [x]}

def Ahead (l : Language α) (final : Prop) (text : List α) : Prop :=
  ∃ word rest, text = word ++ rest ∧ word ∈ l ∧ (final → rest = [])

theorem ahead_one : Ahead (1 : Language α) final text ↔ (final → text = []) := by
  constructor
  · rintro ⟨word, rest, rfl, hword, hfinal⟩ h
    rw [Language.mem_one] at hword
    rw [hword, hfinal h, List.append_nil]
  · intro h
    exact ⟨[], text, rfl, Language.nil_mem_one, h⟩

theorem ahead_add {l' : Language α} :
    Ahead (l + l') final text ↔ Ahead l final text ∨ Ahead l' final text := by
  constructor
  · rintro ⟨word, rest, htext, hword | hword, hfinal⟩
    · exact Or.inl ⟨word, rest, htext, hword, hfinal⟩
    · exact Or.inr ⟨word, rest, htext, hword, hfinal⟩
  · rintro (⟨word, rest, htext, hword, hfinal⟩ | ⟨word, rest, htext, hword, hfinal⟩)
    · exact ⟨word, rest, htext, Or.inl hword, hfinal⟩
    · exact ⟨word, rest, htext, Or.inr hword, hfinal⟩

theorem ahead_letter : Ahead (letter p * l) final text ↔
    ∃ x rest, text = x :: rest ∧ p x ∧ Ahead l final rest := by
  constructor
  · rintro ⟨word, rest, rfl, hword, hfinal⟩
    obtain ⟨_, ⟨x, hx, rfl⟩, b, hb, rfl⟩ := Language.mem_mul.mp hword
    exact ⟨x, b ++ rest, List.append_assoc .., hx, b, rest, rfl, hb, hfinal⟩
  · rintro ⟨x, _, rfl, hx, word, rest, rfl, hword, hfinal⟩
    exact ⟨[x] ++ word, rest, rfl, Language.append_mem_mul ⟨x, hx, rfl⟩ hword, hfinal⟩

/-- A star is left at once, or after another letter. -/
theorem ahead_kstar :
    Ahead ((letter p)∗ * l) final text ↔
      Ahead l final text ∨ Ahead (letter p * ((letter p)∗ * l)) final text := by
  have hunfold : (letter p)∗ * l = l + letter p * ((letter p)∗ * l) := by
    calc (letter p)∗ * l
        = (1 + letter p * (letter p)∗) * l := by rw [Language.one_add_self_mul_kstar_eq_kstar]
      _ = l + letter p * ((letter p)∗ * l) := by rw [add_mul, one_mul, mul_assoc]
  rw [hunfold, ahead_add, ← hunfold]

end Prefix
