import Mathlib.Data.Nat.Notation

/-!
# Programs on a state that may fail

A program reads and changes a state, and it may fail: it stops the machine with a
message, or it waits for itself for ever.

`Meets E c Q s` is its contract: from `s`, `c` either ends in `Q`, or fails with a fault
and in a state that `E` allows.  There is one rule for each construct, so that a
contract of a program is put together from the contracts of its parts.
-/

namespace Faulting

inductive Fault where
  | panic (message : String)
  | deadlock
deriving DecidableEq, Repr

/-- A program that fails leaves a state, too. -/
abbrev Prog (σ : Type) := ExceptT Fault (StateM σ)

variable {σ α β ι : Type}

def fail (message : String) : Prog σ α := throw (.panic message)

/-- From `s`, the program ends in `Q`, or with a fault that `E` allows. -/
def Meets (E : Fault → σ → Prop) (c : Prog σ α) (Q : α → σ → Prop) (s : σ) : Prop :=
  match c.run s with
  | (.ok a, t) => Q a t
  | (.error e, t) => E e t

variable {E : Fault → σ → Prop} {c : Prog σ α} {Q Q' : α → σ → Prop} {s t : σ} {a : α}

/-! ## The rules -/

@[simp] theorem meets_pure : Meets E (pure a : Prog σ α) Q s ↔ Q a s := Iff.rfl

@[simp] theorem meets_bind {f : α → Prog σ β} {Q : β → σ → Prop} :
    Meets E (c >>= f) Q s ↔ Meets E c (fun a t => Meets E (f a) Q t) s := by
  have hrun : (c >>= f).run s = ExceptT.bindCont f (c.run s).1 (c.run s).2 := rfl
  rw [Meets, hrun, Meets]
  rcases c.run s with ⟨x, t⟩
  cases x <;> rfl

@[simp] theorem meets_get {Q : σ → σ → Prop} : Meets E (get : Prog σ σ) Q s ↔ Q s s := Iff.rfl

@[simp] theorem meets_modify {f : σ → σ} {Q : PUnit → σ → Prop} :
    Meets E (modify f : Prog σ PUnit) Q s ↔ Q ⟨⟩ (f s) := Iff.rfl

@[simp] theorem meets_throw {e : Fault} : Meets E (throw e : Prog σ α) Q s ↔ E e s := Iff.rfl

@[simp] theorem meets_fail {message : String} :
    Meets E (fail message : Prog σ α) Q s ↔ E (.panic message) s := Iff.rfl

theorem Meets.mono (h : Meets E c Q s) (himp : ∀ a t, Q a t → Q' a t) : Meets E c Q' s := by
  unfold Meets at h ⊢
  split at h
  · exact himp _ _ h
  · exact h

/-- A program has one outcome, so two contracts of it hold together. -/
theorem Meets.both {E' : Fault → σ → Prop} (h : Meets E c Q s) (h' : Meets E' c Q' s) :
    Meets (fun e t => E e t ∧ E' e t) c (fun a t => Q a t ∧ Q' a t) s := by
  unfold Meets at h h' ⊢
  generalize c.run s = outcome at h h' ⊢
  obtain ⟨x, t⟩ := outcome
  cases x with
  | ok a => exact ⟨h, h'⟩
  | error e => exact ⟨h, h'⟩

theorem Meets.allow {E' : Fault → σ → Prop} (h : Meets E c Q s) (himp : ∀ e t, E e t → E' e t) :
    Meets E' c Q s := by
  unfold Meets at h ⊢
  split at h
  · exact h
  · exact himp _ _ h

theorem Meets.and (h : Meets E c Q s) (h' : Meets E c Q' s) :
    Meets E c (fun a t => Q a t ∧ Q' a t) s :=
  (h.both h').allow fun _ _ he => he.1

/-- What a contract says of an outcome. -/
theorem Meets.of_run (h : Meets E c Q s) (hrun : c.run s = (.ok a, t)) : Q a t := by
  unfold Meets at h
  rwa [hrun] at h

/-- A program that may not fail returns something. -/
theorem Meets.returns (h : Meets (fun _ _ => False) c Q s) :
    ∃ a t, c.run s = (.ok a, t) ∧ Q a t := by
  unfold Meets at h
  split at h
  · rename_i a t hrun
    exact ⟨a, t, hrun, h⟩
  · exact h.elim

/-! ## Loops -/

/-- The body takes the invariant from each index to the next one. -/
theorem meets_forM_range' {body : ℕ → Prog σ PUnit} {I : ℕ → σ → Prop} {i n : ℕ} (hi : I i s)
    (hbody : ∀ j t, i ≤ j → j < i + n → I j t → Meets E (body j) (fun _ t' => I (j + 1) t') t) :
    Meets E ((List.range' i n).forM body) (fun _ t => I (i + n) t) s := by
  induction n generalizing i s with
  | zero => exact hi
  | succ n ih =>
      rw [List.range'_succ]
      show Meets E (body i >>= fun _ => (List.range' (i + 1) n).forM body) _ s
      rw [meets_bind]
      refine (hbody i s (Nat.le_refl i) (by omega) hi).mono fun _ t ht => ?_
      have hrest := ih ht fun j t' hij hj => hbody j t' (by omega) (by omega)
      rwa [Nat.add_right_comm, Nat.add_assoc] at hrest

theorem meets_forM_range {body : ℕ → Prog σ PUnit} {I : ℕ → σ → Prop} {n : ℕ} (hzero : I 0 s)
    (hbody : ∀ j t, j < n → I j t → Meets E (body j) (fun _ t' => I (j + 1) t') t) :
    Meets E ((List.range n).forM body) (fun _ t => I n t) s := by
  rw [List.range_eq_range']
  have hloop := meets_forM_range' (n := n) hzero fun j t _ hj => hbody j t (by omega)
  rwa [Nat.zero_add] at hloop

theorem meets_forM_append {body : ι → Prog σ PUnit} {l l' : List ι} {Q : PUnit → σ → Prop} :
    Meets E ((l ++ l').forM body) Q s ↔
      Meets E (l.forM body) (fun _ t => Meets E (l'.forM body) Q t) s := by
  induction l generalizing s with
  | nil => exact Iff.rfl
  | cons i l ih =>
      show Meets E (body i >>= fun _ => (l ++ l').forM body) _ s ↔
        Meets E (body i >>= fun _ => l.forM body) _ s
      rw [meets_bind, meets_bind]
      exact ⟨fun h => h.mono fun _ _ => ih.mp, fun h => h.mono fun _ _ => ih.mpr⟩

/-- Everything in a list keeps an invariant. -/
theorem meets_forM {body : ι → Prog σ PUnit} {I : σ → Prop} {l : List ι} (hs : I s)
    (hbody : ∀ i ∈ l, ∀ t, I t → Meets E (body i) (fun _ => I) t) :
    Meets E (l.forM body) (fun _ => I) s := by
  induction l generalizing s with
  | nil => exact hs
  | cons i l ih =>
      show Meets E (body i >>= fun _ => l.forM body) _ s
      rw [meets_bind]
      exact (hbody i List.mem_cons_self s hs).mono fun _ t ht =>
        ih ht fun j hj => hbody j (List.mem_cons_of_mem _ hj)

end Faulting
