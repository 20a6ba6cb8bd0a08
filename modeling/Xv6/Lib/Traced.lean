import Xv6.Lib.Faulting

/-!
# Programs that leave a trace

A program whose state has a list of events besides its proper state.  `lift` runs a program that
knows nothing about the events, and `emit` adds one.

`Erases` says that a program is another one with events: there is a rule for each construct, and
what has been proved about the program without events holds with them (`Erases.meets`).
-/

namespace Faulting

variable {σ τ α β : Type}

/-- A program with events of type `τ`, of which the last one is the newest. -/
abbrev Traced (σ τ : Type) := Prog (σ × List τ)

def lift (c : Prog σ α) : Traced σ τ α :=
  ExceptT.mk fun s => ((c.run s.1).1, ((c.run s.1).2, s.2))

def emit (e : τ) : Traced σ τ PUnit := modify fun s => (s.1, s.2 ++ [e])

variable {E : Fault → σ × List τ → Prop} {s : σ × List τ} {c : Prog σ α} {e : τ}

@[simp] theorem meets_lift {Q : α → σ × List τ → Prop} :
    Meets E (lift c) Q s ↔
      Meets (fun f t => E f (t, s.2)) c (fun a t => Q a (t, s.2)) s.1 := by
  have hrun : (lift c : Traced σ τ α).run s = ((c.run s.1).1, ((c.run s.1).2, s.2)) := rfl
  rw [Meets, hrun, Meets]
  rcases c.run s.1 with ⟨x, t⟩
  cases x <;> rfl

@[simp] theorem meets_emit {Q : PUnit → σ × List τ → Prop} :
    Meets E (emit e) Q s ↔ Q ⟨⟩ (s.1, s.2 ++ [e]) := Iff.rfl

/-! ## The program without its events -/

/-- Without the events, `c'` is `c`. -/
def Erases (c' : Traced σ τ α) (c : Prog σ α) : Prop :=
  ∀ s, (c'.run s).1 = (c.run s.1).1 ∧ (c'.run s).2.1 = (c.run s.1).2

namespace Erases

variable {c' : Traced σ τ α}

theorem pure (a : α) : Erases (Pure.pure a : Traced σ τ α) (Pure.pure a) := fun _ => ⟨rfl, rfl⟩

theorem fail (message : String) : Erases (Faulting.fail message : Traced σ τ α)
    (Faulting.fail message) := fun _ => ⟨rfl, rfl⟩

theorem lift (c : Prog σ α) : Erases (Faulting.lift c : Traced σ τ α) c := fun _ => ⟨rfl, rfl⟩

theorem bind {f' : α → Traced σ τ β} {f : α → Prog σ β} (h : Erases c' c)
    (hf : ∀ a, Erases (f' a) (f a)) : Erases (c' >>= f') (c >>= f) := by
  intro s
  have hrun' : (c' >>= f').run s = ExceptT.bindCont f' (c'.run s).1 (c'.run s).2 := rfl
  have hrun : (c >>= f).run s.1 = ExceptT.bindCont f (c.run s.1).1 (c.run s.1).2 := rfl
  rw [hrun', hrun, ← (h s).1, ← (h s).2]
  rcases c'.run s with ⟨x, t⟩
  cases x with
  | ok a => exact hf a t
  | error e => exact ⟨rfl, rfl⟩

/-- An event is nothing. -/
theorem emit {c' : Traced σ τ α} (h : Erases c' c) : Erases (Faulting.emit e >>= fun _ => c') c :=
  fun s => h (s.1, s.2 ++ [e])

theorem ite {p : Prop} [Decidable p] {d' : Traced σ τ α} {d : Prog σ α} (h : p → Erases c' c)
    (h' : ¬p → Erases d' d) : Erases (if p then c' else d') (if p then c else d) := by
  by_cases hp : p
  · rw [if_pos hp, if_pos hp]
    exact h hp
  · rw [if_neg hp, if_neg hp]
    exact h' hp

theorem meets {Ec : Fault → σ → Prop} {Q : α → σ → Prop} (h : Erases c' c)
    (hc : Meets Ec c Q s.1) : Meets (fun f t => Ec f t.1) c' (fun a t => Q a t.1) s := by
  have hresult := h s
  unfold Meets at hc ⊢
  generalize c.run s.1 = outcome at hc hresult
  generalize c'.run s = outcome' at hresult ⊢
  obtain ⟨x, t⟩ := outcome
  obtain ⟨x', t'⟩ := outcome'
  obtain ⟨rfl, rfl⟩ := hresult
  cases x' with
  | ok a => exact hc
  | error e => exact hc

end Erases

end Faulting
