import Mathlib.Logic.Relation

/-!
# Steps that may block or fail, and their runs

A system is a function `step : σ → α → Outcome σ` on states and actions.  An
action leads to a next state, or it cannot be taken now (it waits for another
party), or it ends in a fatal error with a message.  `Outcome` is a monad, so
that an operation can be written as the sequence of its parts.

A `Run` is a finite sequence of steps each of which meets a guard on the state
before it, the action and the state after it.  With the guard that asks for
nothing, a run is plain reachability.  Everything proved about runs comes from
`Run.invariant`: what every guarded step preserves holds at the end of a run.

`recorded` adds to the states a record of the run so far, for properties that
speak of earlier steps.

`exec` runs a list of actions, so that a concrete run can be evaluated;
`reaches_of_exec` and `run_of_exec` turn an evaluation into a run.
-/

namespace Transition

universe u v

/-- What trying one step gives. -/
inductive Outcome (σ : Type u) where
  | next (state : σ)
  | blocked
  | panic (message : String)

namespace Outcome

variable {σ τ : Type u}

/-- Go on with `f` where the first part gave a next state. -/
def bind (x : Outcome σ) (f : σ → Outcome τ) : Outcome τ :=
  match x with
  | next state => f state
  | blocked => blocked
  | panic message => panic message

instance : Monad Outcome where
  pure := next
  bind := bind

@[simp] theorem pure_eq (state : σ) : (pure state : Outcome σ) = next state := rfl

@[simp] theorem next_bind (state : σ) (f : σ → Outcome τ) : (next state >>= f) = f state := rfl

@[simp] theorem blocked_bind (f : σ → Outcome τ) : (blocked >>= f) = blocked := rfl

@[simp] theorem panic_bind (message : String) (f : σ → Outcome τ) :
    (panic message >>= f) = panic message := rfl

@[simp] theorem bind_eq_next {x : Outcome σ} {f : σ → Outcome τ} {state : τ} :
    (x >>= f) = next state ↔ ∃ middle, x = next middle ∧ f middle = next state := by
  cases x <;> simp

/-- The step does not end in a fatal error. -/
def Safe (x : Outcome σ) : Prop :=
  ∀ message, x ≠ panic message

@[simp] theorem safe_next (state : σ) : (next state).Safe := by simp [Safe]

@[simp] theorem safe_blocked : (blocked : Outcome σ).Safe := by simp [Safe]

theorem bind_eq_panic {x : Outcome σ} {f : σ → Outcome τ} {message : String} :
    (x >>= f) = panic message ↔
      x = panic message ∨ ∃ middle, x = next middle ∧ f middle = panic message := by
  cases x <;> simp

theorem Safe.bind {x : Outcome σ} {f : σ → Outcome τ} (hx : x.Safe)
    (hf : ∀ middle, x = next middle → (f middle).Safe) : (x >>= f).Safe := by
  intro message h
  rcases bind_eq_panic.mp h with h | ⟨middle, hmiddle, h⟩
  · exact hx message h
  · exact hf middle hmiddle message h

end Outcome

section Runs

variable {σ : Type u} {α : Type v} {step : σ → α → Outcome σ}
variable {guard weaker : σ → α → σ → Prop} {s t r : σ}

/-- One step by some action that meets the guard. -/
def Guarded (step : σ → α → Outcome σ) (guard : σ → α → σ → Prop) (s t : σ) : Prop :=
  ∃ a, step s a = .next t ∧ guard s a t

/-- A finite sequence of steps that all meet the guard. -/
abbrev Run (step : σ → α → Outcome σ) (guard : σ → α → σ → Prop) : σ → σ → Prop :=
  Relation.ReflTransGen (Guarded step guard)

/-- A finite sequence of arbitrary steps. -/
abbrev Reaches (step : σ → α → Outcome σ) : σ → σ → Prop :=
  Run step fun _ _ _ => True

/-- What every guarded step preserves holds at the end of a run. -/
theorem Run.invariant {I : σ → Prop} (run : Run step guard s t) (hstart : I s)
    (hstep : ∀ ⦃s a t⦄, step s a = .next t → guard s a t → I s → I t) : I t := by
  induction run with
  | refl => exact hstart
  | tail _ hlast ih =>
      obtain ⟨a, ha, hguard⟩ := hlast
      exact hstep ha hguard ih

theorem Run.mono (run : Run step guard s t)
    (himp : ∀ ⦃s a t⦄, step s a = .next t → guard s a t → weaker s a t) :
    Run step weaker s t :=
  Relation.ReflTransGen.mono (fun _ _ ⟨a, ha, hguard⟩ => ⟨a, ha, himp ha hguard⟩) _ _ run

theorem Run.reaches (run : Run step guard s t) : Reaches step s t :=
  run.mono fun _ _ _ _ _ => trivial

theorem Run.snoc (run : Run step guard s t) {a : α} (ha : step t a = .next r)
    (hguard : guard t a r) : Run step guard s r :=
  run.tail ⟨a, ha, hguard⟩

theorem Reaches.snoc (run : Reaches step s t) {a : α} (ha : step t a = .next r) :
    Reaches step s r :=
  Run.snoc run ha trivial

/-- An invariant of the whole system may be used while proving one of a guarded
run: it holds before every step. -/
theorem Run.invariant_of_inductive {I J : σ → Prop} (run : Run step guard s t)
    (hJ : J s) (hJstep : ∀ ⦃s a t⦄, step s a = .next t → J s → J t) (hstart : I s)
    (hstep : ∀ ⦃s a t⦄, step s a = .next t → guard s a t → J s → I s → I t) : I t :=
  (run.invariant (I := fun state => J state ∧ I state) ⟨hJ, hstart⟩
    fun _ _ _ ha hguard h => ⟨hJstep ha h.1, hstep ha hguard h.1 h.2⟩).2

/-! ## Runs with a record -/

/-- The system together with a record that every step brings up to date. -/
def recorded {ρ : Type u} (step : σ → α → Outcome σ) (record : ρ → σ → σ → ρ) (s : σ × ρ) (a : α) :
    Outcome (σ × ρ) :=
  step s.1 a >>= fun t => .next (t, record s.2 s.1 t)

theorem recorded_eq_next {ρ : Type u} {record : ρ → σ → σ → ρ} {s t : σ × ρ} {a : α} :
    recorded step record s a = .next t ↔ step s.1 a = .next t.1 ∧ t.2 = record s.2 s.1 t.1 := by
  simp only [recorded, Outcome.bind_eq_next, Outcome.next.injEq]
  constructor
  · rintro ⟨middle, hstep, rfl⟩
    exact ⟨hstep, rfl⟩
  · rintro ⟨hstep, hrecord⟩
    exact ⟨t.1, hstep, by rw [← hrecord]⟩

/-- Every run can be recorded. -/
theorem Reaches.recorded {ρ : Type u} {record : ρ → σ → σ → ρ} (run : Reaches step s t) (r : ρ) :
    ∃ r', Reaches (recorded step record) (s, r) (t, r') := by
  induction run with
  | refl => exact ⟨r, .refl⟩
  | @tail middle last _ hlast ih =>
      obtain ⟨r', hrun⟩ := ih
      obtain ⟨a, ha, -⟩ := hlast
      exact ⟨record r' middle last, Reaches.snoc hrun (recorded_eq_next.mpr ⟨ha, rfl⟩)⟩

/-- As `recorded`, where the record also hears of the action. -/
def traced {ρ : Type u} (step : σ → α → Outcome σ) (record : ρ → σ → α → σ → ρ) (s : σ × ρ)
    (a : α) : Outcome (σ × ρ) :=
  step s.1 a >>= fun t => .next (t, record s.2 s.1 a t)

theorem traced_eq_next {ρ : Type u} {record : ρ → σ → α → σ → ρ} {s t : σ × ρ} {a : α} :
    traced step record s a = .next t ↔ step s.1 a = .next t.1 ∧ t.2 = record s.2 s.1 a t.1 := by
  have heq : traced step record s a = recorded step (fun r s t => record r s a t) s a := rfl
  rw [heq, recorded_eq_next]

/-! ## Running a list of actions -/

/-- The steps of `step` that meet a decidable guard; the others are blocked. -/
def checked (step : σ → α → Outcome σ) (guard : σ → α → σ → Prop)
    [∀ s a t, Decidable (guard s a t)] (s : σ) (a : α) : Outcome σ :=
  match step s a with
  | .next t => if guard s a t then .next t else .blocked
  | .blocked => .blocked
  | .panic message => .panic message

theorem checked_eq_next [∀ s a t, Decidable (guard s a t)] {a : α} :
    checked step guard s a = .next t ↔ step s a = .next t ∧ guard s a t := by
  unfold checked
  cases hstep : step s a with
  | next state =>
      by_cases hguard : guard s a state
      · simp only [if_pos hguard, Outcome.next.injEq]
        constructor
        · rintro rfl
          exact ⟨rfl, hguard⟩
        · exact fun h => h.1
      · simp only [if_neg hguard, Outcome.next.injEq, reduceCtorEq, false_iff, not_and]
        rintro rfl
        exact hguard
  | blocked => simp
  | panic message => simp

/-- Take the actions one after another. -/
def exec (step : σ → α → Outcome σ) (s : σ) : List α → Outcome σ
  | [] => .next s
  | a :: rest => step s a >>= fun t => exec step t rest

theorem reaches_of_exec {actions : List α} (h : exec step s actions = .next t) :
    Reaches step s t := by
  induction actions generalizing s with
  | nil =>
      obtain rfl : s = t := by simpa [exec] using h
      exact .refl
  | cons a rest ih =>
      obtain ⟨middle, hfirst, hrest⟩ := Outcome.bind_eq_next.mp h
      exact .head ⟨a, hfirst, trivial⟩ (ih hrest)

/-- The outcome is a state that passes the check. -/
def Outcome.test (x : Outcome σ) (check : σ → Bool) : Bool :=
  match x with
  | next state => check state
  | _ => false

theorem Outcome.test_eq_true {x : Outcome σ} {check : σ → Bool} :
    x.test check = true ↔ ∃ state, x = .next state ∧ check state = true := by
  cases x <;> simp [test]

/-- The outcome is this error. -/
def Outcome.fails (x : Outcome σ) (message : String) : Bool :=
  match x with
  | panic text => text = message
  | _ => false

theorem Outcome.eq_panic {x : Outcome σ} {message : String} (h : x.fails message = true) :
    x = .panic message := by
  cases x with
  | panic text => exact congrArg panic (of_decide_eq_true h)
  | next state => cases h
  | blocked => cases h

/-- The state in which a list of actions ends is reached. -/
theorem reaches_of_test {actions : List α} {check : σ → Bool}
    (h : (exec step s actions).test check = true) :
    ∃ t, Reaches step s t ∧ check t = true := by
  obtain ⟨t, hexec, hcheck⟩ := Outcome.test_eq_true.mp h
  exact ⟨t, reaches_of_exec hexec, hcheck⟩

theorem run_of_exec [∀ s a t, Decidable (guard s a t)] {actions : List α}
    (h : exec (checked step guard) s actions = .next t) : Run step guard s t := by
  have hreaches := reaches_of_exec h
  refine Relation.ReflTransGen.mono (fun _ _ hlast => ?_) _ _ hreaches
  obtain ⟨a, ha, -⟩ := hlast
  exact ⟨a, checked_eq_next.mp ha⟩

theorem run_of_test [∀ s a t, Decidable (guard s a t)] {actions : List α} {check : σ → Bool}
    (h : (exec (checked step guard) s actions).test check = true) :
    ∃ t, Run step guard s t ∧ check t = true := by
  obtain ⟨t, hexec, hcheck⟩ := Outcome.test_eq_true.mp h
  exact ⟨t, run_of_exec hexec, hcheck⟩

end Runs

end Transition
