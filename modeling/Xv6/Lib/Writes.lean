import Mathlib.Data.List.Nodup
import Mathlib.Logic.Function.Basic

/-!
# Sequences of writes

A store maps addresses to contents, and `writeAll` writes a list of contents one
after another.  What an address holds afterwards is what was last written there
(`writeAll_of_mem`), or what it held before (`writeAll_of_not_mem`).
-/

namespace Writes

variable {κ β : Type*} [DecidableEq κ] {store store' : κ → β} {ws vs : List (κ × β)} {k : κ} {v : β}

def writeAll (store : κ → β) (ws : List (κ × β)) : κ → β :=
  ws.foldl (fun store w => Function.update store w.1 w.2) store

@[simp] theorem writeAll_nil (store : κ → β) : writeAll store [] = store := rfl

@[simp] theorem writeAll_cons (store : κ → β) (w : κ × β) (ws : List (κ × β)) :
    writeAll store (w :: ws) = writeAll (Function.update store w.1 w.2) ws := rfl

@[simp] theorem writeAll_append (store : κ → β) (ws vs : List (κ × β)) :
    writeAll store (ws ++ vs) = writeAll (writeAll store ws) vs :=
  List.foldl_append

/-- What is not written stays. -/
theorem writeAll_of_not_mem (h : k ∉ ws.map Prod.fst) : writeAll store ws k = store k := by
  induction ws generalizing store with
  | nil => rfl
  | cons w rest ih =>
      simp only [List.map_cons, List.mem_cons, not_or] at h
      rw [writeAll_cons, ih h.2, Function.update_of_ne h.1]

/-- What is written once is there afterwards. -/
theorem writeAll_of_mem (hnodup : (ws.map Prod.fst).Nodup) (h : (k, v) ∈ ws) :
    writeAll store ws k = v := by
  induction ws generalizing store with
  | nil => simp at h
  | cons w rest ih =>
      rw [List.map_cons, List.nodup_cons] at hnodup
      rw [writeAll_cons]
      rcases List.mem_cons.mp h with rfl | h
      · rw [writeAll_of_not_mem hnodup.1, Function.update_self]
      · exact ih hnodup.2 h

/-- Two stores that differ only where both are written are the same afterwards. -/
theorem writeAll_congr (h : k ∉ ws.map Prod.fst → store k = store' k) :
    writeAll store ws k = writeAll store' ws k := by
  induction ws generalizing store store' with
  | nil => exact h (by simp)
  | cons w rest ih =>
      rw [writeAll_cons, writeAll_cons]
      refine ih fun hrest => ?_
      by_cases hk : k = w.1
      · subst hk
        rw [Function.update_self, Function.update_self]
      · rw [Function.update_of_ne hk, Function.update_of_ne hk]
        exact h (by simpa [hk] using hrest)

end Writes
