import Mathlib.Algebra.Order.Group.Nat

/-!
# Recursion with fuel

A recursive function that may not terminate takes a number of steps, its fuel, and answers
`none` when they run out.  `Returns call x` says that with enough fuel the call answers
`x`.  The answer is unique, and what a sequence of calls returns follows from what each
of them returns; a call that throws ends the sequence.
-/

namespace Fuel

variable {α β ε : Type}

/-- With enough fuel the call returns `x`. -/
def Returns {α : Type} (call : ℕ → Option α) (x : α) : Prop :=
  ∃ n, ∀ fuel, n ≤ fuel → call fuel = some x

theorem Returns.unique {call : ℕ → Option α} {x y : α} (hx : Returns call x)
    (hy : Returns call y) : x = y := by
  obtain ⟨n, hn⟩ := hx
  obtain ⟨m, hm⟩ := hy
  exact Option.some.inj ((hn (max n m) (le_max_left n m)).symm.trans (hm _ (le_max_right n m)))

theorem Returns.of_eq {call : ℕ → Option α} {x : α} (hcall : ∀ fuel, call fuel = some x) :
    Returns call x :=
  ⟨0, fun fuel _ => hcall fuel⟩

/-- One unit of fuel more. -/
theorem Returns.of_succ {call : ℕ → Option α} {x : α}
    (hcall : Returns (fun fuel => call (fuel + 1)) x) : Returns call x := by
  obtain ⟨n, hn⟩ := hcall
  refine ⟨n + 1, fun fuel hfuel => ?_⟩
  obtain ⟨fuel, rfl⟩ := Nat.exists_eq_add_of_le' (Nat.le_of_succ_le hfuel)
  cases n with
  | zero =>
      obtain ⟨fuel, rfl⟩ := Nat.exists_eq_add_of_le' hfuel
      exact hn fuel (Nat.zero_le fuel)
  | succ n => exact hn (fuel + n) (by omega)

/-! ## Calls that may throw -/

variable {f : ℕ → ExceptT ε Option α} {g : ℕ → α → ExceptT ε Option β} {x : α}

theorem Returns.bind_ok {r : Except ε β} (hf : Returns (fun fuel => (f fuel).run) (.ok x))
    (hg : Returns (fun fuel => (g fuel x).run) r) :
    Returns (fun fuel => (f fuel >>= g fuel).run) r := by
  obtain ⟨n, hn⟩ := hf
  obtain ⟨m, hm⟩ := hg
  refine ⟨max n m, fun fuel hfuel => ?_⟩
  have hfirst : (f fuel).run = some (.ok x) := hn fuel (le_of_max_le_left hfuel)
  have hsecond : (g fuel x).run = some r := hm fuel (le_of_max_le_right hfuel)
  show (f fuel >>= g fuel).run = some r
  rw [ExceptT.run_bind, hfirst]
  exact hsecond

theorem Returns.bind_error {e : ε} (hf : Returns (fun fuel => (f fuel).run) (.error e)) :
    Returns (fun fuel => (f fuel >>= g fuel).run) (.error e) := by
  obtain ⟨n, hn⟩ := hf
  refine ⟨n, fun fuel hfuel => ?_⟩
  have hfirst : (f fuel).run = some (.error e) := hn fuel hfuel
  show (f fuel >>= g fuel).run = some (.error e)
  rw [ExceptT.run_bind, hfirst]
  rfl

theorem returns_pure (x : α) :
    Returns (fun _ => (pure x : ExceptT ε Option α).run) (.ok x) :=
  Returns.of_eq fun _ => rfl

theorem returns_throw (e : ε) :
    Returns (fun _ => (throw e : ExceptT ε Option α).run) (.error e) :=
  Returns.of_eq fun _ => rfl

end Fuel
