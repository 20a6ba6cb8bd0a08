import Mathlib.Data.Nat.Notation

/-!
# Programs over a typestate

A program is built from elementary acts by sequence, choice, iteration and
calls, and runs on a stack: `advance` does the steps that concern control only,
and stops in front of an act.

A typestate says what a thread may do next.  An act is allowed in some typestates
only and leads to a new one (`δ : A → T → Option T`).  `Ok` checks a program
against this: every act that it comes to is allowed, and where it ends or returns
the typestate is as asked.  A loop has to come back to the typestate it began in.

`Conforms` is the same check for a stack.  It is kept by control steps
(`Conforms.advance`) and tells that the act on top is allowed (`conforms_act`), so a
thread never does an act that its typestate forbids, whatever other threads do
meanwhile.
-/

namespace Typestate

inductive Prog (A : Type) where
  | skip
  | act (a : A)
  | seq (first second : Prog A)
  | choice (left right : Prog A)
  | loop (body : Prog A)
  | pick (f : ℕ → Prog A)
  | call (body : Prog A)
  | ret
  | stop

/-- What is left to do: programs, and between them the ends of calls. -/
inductive Item (A : Type) where
  | prog (p : Prog A)
  | back

variable {A T : Type}

/-- The programs, one after another. -/
def block : List (Prog A) → Prog A
  | [] => .skip
  | [p] => p
  | p :: rest => .seq p (block rest)

/-- Leave the innermost call. -/
def unwind : List (Item A) → List (Item A)
  | [] => []
  | .back :: k => k
  | .prog _ :: k => unwind k

/-- A step of control: where there is a choice, `left` and `i` decide. -/
def advance (left : Bool) (i : ℕ) : List (Item A) → Option (List (Item A))
  | [] => none
  | .back :: k => some k
  | .prog .skip :: k => some k
  | .prog (.act _) :: _ => none
  | .prog (.seq p q) :: k => some (.prog p :: .prog q :: k)
  | .prog (.choice p q) :: k => some (.prog (if left then p else q) :: k)
  | .prog (.loop p) :: k => some (if left then .prog p :: .prog (.loop p) :: k else k)
  | .prog (.pick f) :: k => some (.prog (f i) :: k)
  | .prog (.call p) :: k => some (.prog p :: .back :: k)
  | .prog .ret :: k => some (unwind k)
  | .prog .stop :: _ => none

section Check

variable (δ : A → T → Option T)

/-- From typestate `t` on the program does only what it may, and it meets `Q` where
it ends and `R` where it returns. -/
def Ok : Prog A → (T → Prop) → (T → Prop) → T → Prop
  | .skip, Q, _, t => Q t
  | .act a, Q, _, t => (δ a t).elim False Q
  | .seq p q, Q, R, t => Ok p (Ok q Q R) R t
  | .choice p q, Q, R, t => Ok p Q R t ∧ Ok q Q R t
  | .loop p, Q, R, t => Q t ∧ Ok p (fun t' => t' = t) R t
  | .pick f, Q, R, t => ∀ i, Ok (f i) Q R t
  | .call p, Q, _, t => Ok p Q Q t
  | .ret, _, R, t => R t
  | .stop, _, _, _ => True

/-- What is asked of the typestate by the items when the one on top is reached, and
when the innermost call is left.  At the end the typestate is `start`. -/
def needs (start : T) : List (Item A) → (T → Prop) × (T → Prop)
  | [] => (fun t => t = start, fun t => t = start)
  | .prog p :: k => (Ok δ p (needs start k).1 (needs start k).2, (needs start k).2)
  | .back :: k => ((needs start k).1, (needs start k).1)

/-- A thread with this stack does only what it may. -/
def Conforms (start : T) (k : List (Item A)) (t : T) : Prop :=
  (needs δ start k).1 t

end Check

variable {δ : A → T → Option T} {Q Q' R R' : T → Prop} {t start : T} {p q : Prog A} {a : A}
variable {k k' : List (Item A)}

/-! ## Checking programs -/

@[simp] theorem ok_skip : Ok δ .skip Q R t ↔ Q t := Iff.rfl

@[simp] theorem ok_act : Ok δ (.act a) Q R t ↔ (δ a t).elim False Q := Iff.rfl

@[simp] theorem ok_seq : Ok δ (.seq p q) Q R t ↔ Ok δ p (Ok δ q Q R) R t := Iff.rfl

@[simp] theorem ok_choice : Ok δ (.choice p q) Q R t ↔ Ok δ p Q R t ∧ Ok δ q Q R t := Iff.rfl

@[simp] theorem ok_loop :
    Ok δ (.loop p) Q R t ↔ Q t ∧ Ok δ p (fun t' => t' = t) R t := Iff.rfl

@[simp] theorem ok_pick {f : ℕ → Prog A} : Ok δ (.pick f) Q R t ↔ ∀ i, Ok δ (f i) Q R t := Iff.rfl

@[simp] theorem ok_call : Ok δ (.call p) Q R t ↔ Ok δ p Q Q t := Iff.rfl

@[simp] theorem ok_ret : Ok δ .ret Q R t ↔ R t := Iff.rfl

@[simp] theorem ok_stop : Ok δ .stop Q R t ↔ True := Iff.rfl

theorem Ok.mono (h : Ok δ p Q R t) (hQ : ∀ t, Q t → Q' t) (hR : ∀ t, R t → R' t) :
    Ok δ p Q' R' t := by
  induction p generalizing Q Q' R R' t with
  | skip => exact hQ t h
  | act a =>
      simp only [ok_act] at h ⊢
      cases hnext : δ a t with
      | none => simp [hnext] at h
      | some t' =>
          rw [hnext] at h
          exact hQ t' h
  | seq p q ihp ihq => exact ihp h (fun t ht => ihq ht hQ hR) hR
  | choice p q ihp ihq => exact ⟨ihp h.1 hQ hR, ihq h.2 hQ hR⟩
  | loop p ih => exact ⟨hQ t h.1, ih h.2 (fun _ ht => ht) hR⟩
  | pick f ih => exact fun i => ih i (h i) hQ hR
  | call p ih => exact ih h hQ hQ
  | ret => exact hR t h
  | stop => trivial

/-! ## Checking stacks -/

@[simp] theorem conforms_nil : Conforms δ start [] t ↔ t = start := Iff.rfl

@[simp] theorem conforms_back : Conforms δ start (.back :: k) t ↔ Conforms δ start k t := Iff.rfl

/-- Leaving a call is checked against what follows it. -/
theorem needs_snd (start : T) (k : List (Item A)) :
    (needs δ start k).2 = Conforms δ start (unwind k) := by
  induction k with
  | nil => rfl
  | cons item k ih =>
      cases item with
      | prog p => exact ih
      | back => rfl

/-- A program on top is checked against what follows it. -/
theorem conforms_prog : Conforms δ start (.prog p :: k) t ↔
    Ok δ p (Conforms δ start k) (Conforms δ start (unwind k)) t := by
  rw [← needs_snd]
  rfl

/-- Only an allowed act is on top. -/
theorem conforms_act : Conforms δ start (.prog (.act a) :: k) t ↔
    ∃ t', δ a t = some t' ∧ Conforms δ start k t' := by
  rw [conforms_prog, ok_act]
  cases hnext : δ a t <;> simp

theorem Conforms.advance {left : Bool} {i : ℕ} (h : Conforms δ start k t)
    (hstep : advance left i k = some k') : Conforms δ start k' t := by
  cases k with
  | nil => simp [Typestate.advance] at hstep
  | cons item k =>
      cases item with
      | back =>
          obtain rfl := Option.some.inj hstep
          exact h
      | prog p =>
          cases p with
          | skip =>
              obtain rfl := Option.some.inj hstep
              exact h
          | act a => simp [Typestate.advance] at hstep
          | seq p q =>
              obtain rfl := Option.some.inj hstep
              exact h
          | choice p q =>
              obtain rfl := Option.some.inj hstep
              cases left with
              | true => exact h.1
              | false => exact h.2
          | loop p =>
              obtain rfl := Option.some.inj hstep
              cases left with
              | true =>
                  -- the next round begins in the same typestate
                  refine Ok.mono h.2 (fun t' ht' => ?_) (fun _ ht => ht)
                  rw [ht']
                  exact h
              | false => exact h.1
          | pick f =>
              obtain rfl := Option.some.inj hstep
              exact h i
          | call p =>
              obtain rfl := Option.some.inj hstep
              exact h
          | ret =>
              obtain rfl := Option.some.inj hstep
              have hreturn : (needs δ start k).2 t := h
              rwa [needs_snd] at hreturn
          | stop => simp [Typestate.advance] at hstep

end Typestate
