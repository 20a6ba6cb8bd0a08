import Mathlib.Data.List.Nodup
import Mathlib.Logic.Function.Basic

/-!
# Circular lists

A singly linked list is a function `next` on nodes.  `Path next l y` says that the nodes
of `l` follow each other and that `y` follows the last of them, and `Cycle next l` that
the first node of `l` follows the last.

A circular list can be read from any of its nodes (`Cycle.rotate`).  A node is put in
after another one (`Path.insert`) or taken out (`Path.remove`) by changing one pointer.
-/

namespace Cyclic

variable {ν : Type*} {next next' : ν → ν} {l l₁ l₂ : List ν} {x y z : ν}

/-- The nodes of `l` follow each other, and `y` follows the last. -/
def Path (next : ν → ν) : List ν → ν → Prop
  | [], _ => True
  | x :: l, y => next x = (l ++ [y]).head (by simp) ∧ Path next l y

/-- The node at which a path starts, or its end if it has no nodes. -/
def start : List ν → ν → ν
  | [], y => y
  | x :: _, _ => x

@[simp] theorem start_nil : start [] y = y := rfl

@[simp] theorem start_cons : start (x :: l) y = x := rfl

theorem head_append_singleton : (l ++ [y]).head (by simp) = start l y := by
  cases l <;> rfl

@[simp] theorem path_nil : Path next [] y := trivial

@[simp] theorem path_cons : Path next (x :: l) y ↔ next x = start l y ∧ Path next l y := by
  rw [Path, head_append_singleton]

theorem path_append : Path next (l₁ ++ l₂) y ↔ Path next l₁ (start l₂ y) ∧ Path next l₂ y := by
  induction l₁ with
  | nil => simp
  | cons x l₁ ih =>
      have hstart : start (l₁ ++ l₂) y = start l₁ (start l₂ y) := by
        cases l₁ <;> rfl
      rw [List.cons_append, path_cons, path_cons, ih, hstart, and_assoc]

/-- Only the pointers of the nodes matter. -/
theorem Path.congr (h : Path next l y) (hl : ∀ x ∈ l, next' x = next x) : Path next' l y := by
  induction l with
  | nil => exact path_nil
  | cons x l ih =>
      rw [path_cons] at h ⊢
      rw [hl x List.mem_cons_self]
      exact ⟨h.1, ih h.2 fun z hz => hl z (List.mem_cons_of_mem x hz)⟩

/-- What follows a node is a node, or the end. -/
theorem Path.next_mem (h : Path next l y) (hx : x ∈ l) : next x ∈ l ∨ next x = y := by
  induction l with
  | nil => simp at hx
  | cons z l ih =>
      rw [path_cons] at h
      rcases List.mem_cons.mp hx with rfl | hx
      · rw [h.1]
        cases l with
        | nil => exact Or.inr rfl
        | cons w l => exact Or.inl (by simp)
      · exact (ih h.2 hx).imp_left (List.mem_cons_of_mem z)

/-- `z` is put in after `x`. -/
theorem Path.insert (h : Path next (l₁ ++ x :: l₂) y) (hnodup : (l₁ ++ x :: l₂).Nodup)
    (hz : z ∉ l₁ ++ x :: l₂) (hx' : next' x = z) (hz' : next' z = next x)
    (hothers : ∀ w, w ≠ x → w ≠ z → next' w = next w) :
    Path next' (l₁ ++ x :: z :: l₂) y := by
  rw [path_append, start_cons, path_cons] at h
  obtain ⟨h₁, hx, h₂⟩ := h
  have hout : ∀ w ∈ l₁ ++ x :: l₂, w ≠ x → next' w = next w := fun w hw hne =>
    hothers w hne fun heq => hz (heq ▸ hw)
  have hnodup' := List.nodup_middle.mp hnodup
  have hne : ∀ w ∈ l₁ ++ l₂, w ≠ x := fun w hw heq =>
    (List.nodup_cons.mp hnodup').1 (heq ▸ hw)
  rw [path_append, start_cons, path_cons, path_cons]
  refine ⟨h₁.congr fun w hw => ?_, hx', hz'.trans hx, h₂.congr fun w hw => ?_⟩
  · exact hout w (by simp [hw]) (hne w (by simp [hw]))
  · exact hout w (by simp [hw]) (hne w (by simp [hw]))

/-- The node after `x` is taken out. -/
theorem Path.remove (h : Path next (l₁ ++ x :: z :: l₂) y)
    (hx' : next' x = next z) (hothers : ∀ w ∈ l₁ ++ l₂, next' w = next w) :
    Path next' (l₁ ++ x :: l₂) y := by
  rw [path_append, start_cons, path_cons, path_cons] at h
  obtain ⟨h₁, -, hz, h₂⟩ := h
  rw [path_append, start_cons, path_cons]
  refine ⟨h₁.congr fun w hw => ?_, hx'.trans hz, h₂.congr fun w hw => ?_⟩
  · exact hothers w (by simp [hw])
  · exact hothers w (by simp [hw])

/-- The first node of `l` follows the last one. -/
def Cycle (next : ν → ν) (l : List ν) : Prop := ∀ y, Path next l (start l y)

theorem cycle_cons : Cycle next (x :: l) ↔ Path next (x :: l) x :=
  ⟨fun h => h x, fun h _ => h⟩

/-- A circular list is the same from any of its nodes. -/
theorem Cycle.rotate (h : Cycle next (l₁ ++ x :: l₂)) : Cycle next (x :: l₂ ++ l₁) := by
  cases l₁ with
  | nil => rwa [List.append_nil]
  | cons a l₁ =>
      rw [List.cons_append, cycle_cons, ← List.cons_append, path_append, start_cons] at h
      rw [List.cons_append, cycle_cons, ← List.cons_append, path_append, start_cons]
      exact ⟨h.2, h.1⟩

theorem Cycle.next_mem (h : Cycle next l) (hx : x ∈ l) : next x ∈ l := by
  cases l with
  | nil => simp at hx
  | cons a l =>
      rcases Path.next_mem (cycle_cons.mp h) hx with hmem | heq
      · exact hmem
      · rw [heq]
        exact List.mem_cons_self

end Cyclic
