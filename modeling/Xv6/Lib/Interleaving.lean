import Mathlib.Logic.Function.Basic
import Xv6.Lib.Transition

/-!
# Programs of several processes, interleaved

A program is a tree of atomic steps on a shared state.  A step may have to wait, or end in a fatal
error.  `Machine` runs one program for each process, in any order, and a process whose program has
ended may begin the next call.

The logic is rely-guarantee.  `rely p` is what the others may do while `p` is between two of its
steps, `guar p` is what `p` itself does in a step, and `inv` holds between any two steps.  All three
speak of the state together with a ghost of type `γ`, of which the programs know nothing: at each
step the proof says what the ghost becomes.

`Meets p A c Q`: from a state with `A`, `c` ends in `Q`, whatever the others do meanwhile.  There is
one rule for each construct.  If every call takes `idle` to `idle` (`Verified`), then `inv` holds
in every state of every run (`Verified.good`), each step does what its process guarantees
(`Good.guar`), and no error occurs that is not `allowed` (`Good.allowed`).
-/

namespace Interleaving

open Transition

inductive Code (σ α : Type) : Type 1 where
  | pure (a : α)
  | step {β : Type} (f : σ → Outcome (β × σ)) (k : β → Code σ α)

variable {P C σ γ α β : Type}

namespace Code

def bind : Code σ α → (α → Code σ β) → Code σ β
  | .pure a, f => f a
  | .step g k, f => .step g fun b => (k b).bind f

instance : Monad (Code σ) where
  pure := Code.pure
  bind := Code.bind

/-- One step. -/
def atomic (f : σ → Outcome (α × σ)) : Code σ α := .step f .pure

def read (f : σ → α) : Code σ α := atomic fun s => .next (f s, s)

def modify (f : σ → σ) : Code σ PUnit := atomic fun s => .next (⟨⟩, f s)

def fail (message : String) : Code σ α := atomic fun _ => .panic message

def ended : Code σ α → Bool
  | .pure _ => true
  | .step _ _ => false

theorem eq_pure {c : Code σ PUnit} (h : c.ended = true) : c = .pure ⟨⟩ := by
  cases c with
  | pure a => rfl
  | step f k => cases h

end Code

/-! ## The machine -/

structure Machine (P σ : Type) where
  state : σ
  code : P → Code σ PUnit

/-- A process begins a call, or does its next step. -/
inductive Action (P C : Type) where
  | call (p : P) (c : C)
  | proceed (p : P)

def Action.process : Action P C → P
  | .call p _ => p
  | .proceed p => p

/-- `body p c` is what `p` does in the call `c`. -/
def Machine.step [DecidableEq P] (body : P → C → Code σ PUnit) (m : Machine P σ) :
    Action P C → Outcome (Machine P σ)
  | .call p c =>
      match m.code p with
      | .pure _ => .next { m with code := Function.update m.code p (body p c) }
      | .step _ _ => .blocked
  | .proceed p =>
      match m.code p with
      | .pure _ => .blocked
      | .step f k =>
          match f m.state with
          | .next (b, state) => .next ⟨state, Function.update m.code p (k b)⟩
          | .blocked => .blocked
          | .panic message => .panic message

/-- No call is going on. -/
def Machine.Quiet (m : Machine P σ) : Prop := ∀ p, m.code p = .pure ⟨⟩

theorem Machine.quiet_of_ended {m : Machine P σ} (h : ∀ p, (m.code p).ended = true) : m.Quiet :=
  fun p => Code.eq_pure (h p)

/-! ## The logic -/

structure Logic (P σ γ : Type) where
  inv : σ × γ → Prop
  rely : P → σ × γ → σ × γ → Prop
  guar : P → σ × γ → σ × γ → Prop
  allowed : String → Prop
  refl : ∀ p s, rely p s s
  trans : ∀ p s t u, inv s → inv t → rely p s t → rely p t u → rely p s u
  interfere : ∀ p q s t, inv s → inv t → guar p s t → p ≠ q → rely q s t

namespace Logic

variable (L : Logic P σ γ) (p : P)

/-- From `t`, the step leads to `Q` if it can be done now. -/
def Does (f : σ → Outcome (α × σ)) (Q : α → σ × γ → Prop) (t : σ × γ) : Prop :=
  match f t.1 with
  | .next (a, state) => ∃ g, L.inv (state, g) ∧ L.guar p t (state, g) ∧ Q a (state, g)
  | .blocked => True
  | .panic message => L.allowed message

/-- From `s` on, and whatever the others do, the program goes on as it should and ends in `Q`. -/
def Safe : Code σ α → (α → σ × γ → Prop) → σ × γ → Prop
  | .pure a, Q, s => L.inv s ∧ Q a s
  | .step f k, Q, s => ∀ t, L.rely p s t → L.inv t → L.Does p f (fun b => Safe (k b) Q) t

def Meets (A : σ × γ → Prop) (c : Code σ α) (Q : α → σ × γ → Prop) : Prop :=
  ∀ s, L.inv s → A s → L.Safe p c Q s

/-- The others do not make it false. -/
def Stable (A : σ × γ → Prop) : Prop := ∀ s t, L.inv s → L.inv t → L.rely p s t → A s → A t

variable {L p} {f : σ → Outcome (α × σ)} {c : Code σ α} {Q Q' : α → σ × γ → Prop}
variable {A A' : σ × γ → Prop} {s t : σ × γ}

theorem Does.mono (h : L.Does p f Q t) (himp : ∀ a u, L.inv u → Q a u → Q' a u) :
    L.Does p f Q' t := by
  unfold Does at h ⊢
  split at h
  · obtain ⟨g, hinv, hguar, hQ⟩ := h
    exact ⟨g, hinv, hguar, himp _ _ hinv hQ⟩
  · trivial
  · exact h

theorem does_next {a : α} {u : σ} {g : γ} (hf : f t.1 = .next (a, u))
    (hinv : L.inv (u, g)) (hguar : L.guar p t (u, g)) (hQ : Q a (u, g)) :
    L.Does p f Q t := by
  rw [Does, hf]
  exact ⟨g, hinv, hguar, hQ⟩

theorem does_blocked (hf : f t.1 = .blocked) : L.Does p f Q t := by
  rw [Does, hf]
  trivial

theorem does_panic {message : String} (hf : f t.1 = .panic message) (h : L.allowed message) :
    L.Does p f Q t := by
  rw [Does, hf]
  exact h

theorem Safe.mono (h : L.Safe p c Q s) (himp : ∀ a u, L.inv u → Q a u → Q' a u) :
    L.Safe p c Q' s := by
  induction c generalizing s with
  | pure a => exact ⟨h.1, himp a s h.1 h.2⟩
  | step f k ih => exact fun t hrely hinv => (h t hrely hinv).mono fun b u _ hb => ih b hb

theorem Safe.bind {d : α → Code σ β} {R : β → σ × γ → Prop} (h : L.Safe p c Q s)
    (hd : ∀ a, L.Meets p (Q a) (d a) R) : L.Safe p (c >>= d) R s := by
  induction c generalizing s with
  | pure a => exact hd a s h.1 h.2
  | step f k ih => exact fun t hrely hinv => (h t hrely hinv).mono fun b u _ hb => ih b hb

/-- A program that waits for its turn does not notice that the others go on. -/
theorem Safe.later (h : L.Safe p c Q s) (hQ : ∀ a, L.Stable p (Q a)) (hrely : L.rely p s t)
    (hs : L.inv s) (ht : L.inv t) : L.Safe p c Q t := by
  cases c with
  | pure a => exact ⟨ht, hQ a s t hs ht hrely h.2⟩
  | step f k => exact fun u hu hinvu => h u (L.trans p s t u hs ht hrely hu) hinvu

/-! ### One rule for each construct -/

theorem meets_pure {a : α} : L.Meets p (Q a) (pure a) Q := fun _ hinv h => ⟨hinv, h⟩

theorem Meets.bind {d : α → Code σ β} {R : β → σ × γ → Prop} (h : L.Meets p A c Q)
    (hd : ∀ a, L.Meets p (Q a) (d a) R) : L.Meets p A (c >>= d) R :=
  fun s hinv hA => (h s hinv hA).bind hd

theorem Meets.mono (h : L.Meets p A c Q) (himp : ∀ a u, L.inv u → Q a u → Q' a u) :
    L.Meets p A c Q' := fun s hinv hA => (h s hinv hA).mono himp

theorem Meets.of_imp (h : L.Meets p A c Q) (himp : ∀ u, L.inv u → A' u → A u) :
    L.Meets p A' c Q := fun s hinv hA => h s hinv (himp s hinv hA)

/-- What is known before is still known when the step is done. -/
theorem meets_atomic (hA : L.Stable p A) (h : ∀ t, L.inv t → A t → L.Does p f Q t) :
    L.Meets p A (Code.atomic f) Q := fun s hinvs hs t hrely hinv =>
  (h t hinv (hA s t hinvs hinv hrely hs)).mono fun _ _ hinv' hQ => ⟨hinv', hQ⟩

theorem meets_fail {message : String} (h : L.allowed message) :
    L.Meets p A (Code.fail message) Q := fun _ _ _ _ _ _ => h

theorem meets_false : L.Meets p (fun _ => False) c Q := fun _ _ hA => hA.elim

/-- A fact that does not depend on the state. -/
theorem meets_and {B : Prop} (h : B → L.Meets p A c Q) : L.Meets p (fun s => B ∧ A s) c Q :=
  fun s hinv hA => h hA.1 s hinv hA.2

theorem meets_exists {ι : Sort*} {B : ι → σ × γ → Prop} (h : ∀ i, L.Meets p (B i) c Q) :
    L.Meets p (fun s => ∃ i, B i s) c Q := fun s hinv ⟨i, hi⟩ => h i s hinv hi

/-- The body takes the invariant from each element of the list to the next one. -/
theorem meets_forM {ι : Type} {body : ι → Code σ PUnit} {l : List ι} {I : List ι → σ × γ → Prop}
    (h : ∀ i rest, i :: rest <:+ l → L.Meets p (I (i :: rest)) (body i) fun _ => I rest) :
    L.Meets p (I l) (l.forM body) fun _ => I [] := by
  induction l with
  | nil => exact meets_pure (Q := fun _ => I [])
  | cons i l ih =>
      exact (h i l List.suffix_rfl).bind fun _ =>
        ih fun j rest hsuffix => h j rest (hsuffix.trans (List.suffix_cons i l))

end Logic

/-! ## Runs -/

section Runs

variable [DecidableEq P] (L : Logic P σ γ) (idle : P → σ × γ → Prop) (body : P → C → Code σ PUnit)

/-- Every call takes a process from `idle` back to `idle`. -/
structure Verified : Prop where
  stable : ∀ p, L.Stable p (idle p)
  meets : ∀ p c, L.Meets p (idle p) (body p c) fun _ => idle p

/-- The invariant of the machine, with some ghost. -/
def Good (m : Machine P σ) : Prop :=
  ∃ g, L.inv (m.state, g) ∧ ∀ p, L.Safe p (m.code p) (fun _ => idle p) (m.state, g)

variable {L idle body} {m m' : Machine P σ} {a : Action P C}

/-- What a step of the machine does to the state. -/
theorem step_cases (h : m.step body a = .next m') :
    (∃ p c, a = .call p c ∧ m.code p = .pure ⟨⟩ ∧
      m' = { m with code := Function.update m.code p (body p c) }) ∨
    ∃ (p : P) (β : Type) (f : σ → Outcome (β × σ)) (k : β → Code σ PUnit) (b : β) (state : σ),
      a = .proceed p ∧ m.code p = .step f k ∧ f m.state = .next (b, state) ∧
      m' = ⟨state, Function.update m.code p (k b)⟩ := by
  cases a with
  | call p c =>
      left
      simp only [Machine.step] at h
      split at h
      · rename_i hcode
        exact ⟨p, c, rfl, hcode, (Outcome.next.inj h).symm⟩
      · cases h
  | proceed p =>
      right
      simp only [Machine.step] at h
      split at h
      · cases h
      · rename_i β f k hcode
        split at h
        · rename_i b state hf
          exact ⟨p, β, f, k, b, state, rfl, hcode, hf, (Outcome.next.inj h).symm⟩
        · cases h
        · cases h

omit [DecidableEq P] in
theorem safe_step {p : P} {f : σ → Outcome (β × σ)} {k : β → Code σ PUnit} {s : σ × γ}
    {Q : PUnit → σ × γ → Prop} (h : L.Safe p (.step f k) Q s) (hinv : L.inv s) :
    L.Does p f (fun b => L.Safe p (k b) Q) s := h s (L.refl p s) hinv

theorem Verified.good_step (hv : Verified L idle body) (h : m.step body a = .next m')
    (hgood : Good L idle m) :
    ∃ g g', L.inv (m.state, g) ∧ L.inv (m'.state, g') ∧
      (m'.state = m.state ∨ L.guar a.process (m.state, g) (m'.state, g')) ∧
      ∀ p, L.Safe p (m'.code p) (fun _ => idle p) (m'.state, g') := by
  obtain ⟨g, hinv, hsafe⟩ := hgood
  rcases step_cases h with ⟨p, c, rfl, hcode, rfl⟩ | ⟨p, β, f, k, b, state, rfl, hcode, hf, rfl⟩
  · refine ⟨g, g, hinv, hinv, Or.inl rfl, fun q => ?_⟩
    show L.Safe q (Function.update m.code p (body p c) q) _ _
    by_cases hq : q = p
    · subst hq
      have hidle := hsafe q
      rw [hcode] at hidle
      rw [Function.update_self]
      exact hv.meets q c _ hinv hidle.2
    · rw [Function.update_of_ne hq]
      exact hsafe q
  · have hdoes := hsafe p
    rw [hcode] at hdoes
    have hdoes := safe_step hdoes hinv
    rw [Logic.Does, hf] at hdoes
    obtain ⟨g', hinv', hguar, hrest⟩ := hdoes
    refine ⟨g, g', hinv, hinv', Or.inr hguar, fun q => ?_⟩
    show L.Safe q (Function.update m.code p (k b) q) _ _
    by_cases hq : q = p
    · subst hq
      rw [Function.update_self]
      exact hrest
    · rw [Function.update_of_ne hq]
      have hrely := L.interfere p q _ _ hinv hinv' hguar (Ne.symm hq)
      exact (hsafe q).later (fun _ => hv.stable q) hrely hinv hinv'

theorem Verified.good (hv : Verified L idle body) (run : Reaches (Machine.step body) m m')
    (hgood : Good L idle m) : Good L idle m' := by
  refine run.invariant hgood fun m a m' h _ hgood => ?_
  obtain ⟨-, g', -, hinv', -, hsafe⟩ := hv.good_step h hgood
  exact ⟨g', hinv', hsafe⟩

/-- Only errors that are allowed occur. -/
theorem Good.allowed (hgood : Good L idle m) {message : String}
    (h : m.step body a = .panic message) : L.allowed message := by
  obtain ⟨g, hinv, hsafe⟩ := hgood
  cases a with
  | call p c =>
      simp only [Machine.step] at h
      split at h <;> cases h
  | proceed p =>
      simp only [Machine.step] at h
      split at h
      · cases h
      · rename_i β f k hcode
        have hdoes := hsafe p
        rw [hcode] at hdoes
        have hdoes := safe_step hdoes hinv
        unfold Logic.Does at hdoes
        split at h
        · cases h
        · cases h
        · rename_i hf
          rw [hf] at hdoes
          cases h
          exact hdoes

end Runs

end Interleaving
