import Mathlib.Algebra.Order.Ring.Nat
import Mathlib.Data.List.SplitBy
import Mathlib.Data.List.TakeWhile

/-!
# Maximal runs

A list is cut into its maximal runs of consecutive elements with the same key.
-/

namespace Runs

variable {α β : Type} [DecidableEq β] {key : α → β} {a : α} {l run rest : List α}

/-- The maximal runs of elements with the same key. -/
def runs (key : α → β) (l : List α) : List (List α) := l.splitBy fun a b => key a == key b

/-- The first run, if the rest begins with another key. -/
theorem runs_cons (hrun : ∀ b ∈ run, key b = key a) (hrest : ∀ b ∈ rest.head?, key b ≠ key a) :
    runs key (a :: run ++ rest) = (a :: run) :: runs key rest := by
  have hsame : ∀ b ∈ a :: run, key b = key a := fun b hb =>
    (List.mem_cons.mp hb).elim (fun h => congrArg key h) (hrun b)
  have hone : runs key (a :: run) = [a :: run] := by
    apply List.splitBy_of_isChain (List.cons_ne_nil a run)
    apply List.Pairwise.isChain
    apply List.pairwise_of_forall_mem_list
    intro b hb c hc
    rw [beq_iff_eq, hsame b hb, hsame c hc]
  have hsplit : runs key (a :: run ++ rest) = runs key (a :: run) ++ runs key rest := by
    apply List.splitBy_append
    intro b hb c hc
    rw [beq_eq_false_iff_ne, hsame b (List.mem_of_mem_getLast? hb)]
    exact (hrest c hc).symm
  rw [hsplit, hone, List.singleton_append]

/-- From one run to the next. -/
theorem run_induction {motive : List α → Prop} (hnil : motive [])
    (hcons : ∀ a run rest, (∀ b ∈ run, key b = key a) → (∀ b ∈ rest.head?, key b ≠ key a) →
      motive rest → motive (a :: run ++ rest)) (l : List α) : motive l := by
  induction hlen : l.length using Nat.strong_induction_on generalizing l with
  | _ len ih =>
  cases l with
  | nil => exact hnil
  | cons a l =>
      have hsplit : l.takeWhile (fun b => key b = key a) ++ l.dropWhile (fun b => key b = key a) =
          l := List.takeWhile_append_dropWhile
      rw [← hsplit, ← List.cons_append]
      apply hcons
      · intro b hb
        have hkey := List.mem_takeWhile_imp hb
        exact of_decide_eq_true hkey
      · intro b hb
        have hnot := List.head?_dropWhile_not (fun b => decide (key b = key a)) l
        rw [Option.mem_def.mp hb] at hnot
        simpa using hnot
      · have hle : (l.dropWhile fun b => key b = key a).length ≤ l.length :=
          (List.dropWhile_suffix _).length_le
        refine ih _ ?_ _ rfl
        calc (l.dropWhile fun b => key b = key a).length
            ≤ l.length := hle
          _ < (a :: l).length := Nat.lt_succ_self _
          _ = len := hlen

end Runs
