import Mathlib.Algebra.Order.Group.Multiset
import Mathlib.Data.Multiset.AddSub
import Mathlib.Logic.Function.Basic

/-!
# Computations over an allocator of pages

A computation allocates, frees, reads and changes pages, acts on a state that is
not made of pages, and gets answers from outside.  `Comp` is a monad, so that code
can be written as it stands.

`run` is what a computation does in a world with a list of free pages.  An
allocation fails where the list is empty, and it may also fail where the world
refuses (others have taken the pages).

`Logic.Safe` is its weakest precondition over the pages that it owns: a
computation touches and frees its own pages only, gets pages that it does not have,
and ends in the postcondition.  Since no other page occurs in it, a proof of `Safe`
says the same whatever others do with theirs.  `Logic.Safe.run` is what it means for
`run`: the free pages and the owned pages together stay the same, and no other page
changes.
-/

namespace Allocation

/-- `P` are the pages, `V` their contents, `σ` is the other state, and `R` the answers
from outside. -/
inductive Comp (P V σ R α : Type) where
  | ret (a : α)
  | panic (message : String)
  | alloc (k : Option P → Comp P V σ R α)
  | free (p : P) (k : Comp P V σ R α)
  | load (p : P) (k : V → Comp P V σ R α)
  | modify (p : P) (f : V → V) (k : Comp P V σ R α)
  /-- The rest sees the state before `f`. -/
  | act (f : σ → σ) (k : σ → Comp P V σ R α)
  | input (k : R → Comp P V σ R α)

namespace Comp

variable {P V σ R α β : Type}

def bind (c : Comp P V σ R α) (f : α → Comp P V σ R β) : Comp P V σ R β :=
  match c with
  | ret a => f a
  | panic message => panic message
  | alloc k => alloc fun p => (k p).bind f
  | free p k => free p (k.bind f)
  | load p k => load p fun v => (k v).bind f
  | modify p g k => modify p g (k.bind f)
  | act g k => act g fun s => (k s).bind f
  | input k => input fun r => (k r).bind f

instance : Monad (Comp P V σ R) where
  pure := ret
  bind := bind

@[simp] theorem pure_eq (a : α) : (pure a : Comp P V σ R α) = ret a := rfl

@[simp] theorem bind_eq (c : Comp P V σ R α) (f : α → Comp P V σ R β) : c >>= f = c.bind f := rfl

@[simp] theorem panic_bind (message : String) (f : α → Comp P V σ R β) :
    (panic message : Comp P V σ R α).bind f = panic message := rfl

end Comp

/-! ## Running -/

/-- How a computation ends. -/
inductive Result (α : Type) where
  | returned (a : α)
  | panicked (message : String)

/-- `refuse` tells which of the next allocations fail although there are free pages,
and `failed` whether one has failed. -/
structure World (P V σ R : Type) where
  free : List P
  mem : P → V
  state : σ
  answer : ℕ → R
  refuse : ℕ → Bool
  failed : Bool

variable {P V σ R G α β : Type} [DecidableEq P]

namespace World

/-- The page that the next allocation gets. -/
def offer (w : World P V σ R) : Option P :=
  if w.refuse 0 then none else w.free.head?

/-- After the next allocation. -/
def allocated (w : World P V σ R) : World P V σ R :=
  { w with
    free := if w.refuse 0 then w.free else w.free.tail
    refuse := fun i => w.refuse (i + 1)
    failed := w.failed || w.offer.isNone }

end World

def Comp.run : Comp P V σ R α → World P V σ R → Result α × World P V σ R
  | ret a, w => (.returned a, w)
  | panic message, w => (.panicked message, w)
  | alloc k, w => (k w.offer).run w.allocated
  | free p k, w => k.run { w with free := p :: w.free }
  | load p k, w => (k (w.mem p)).run w
  | modify p f k, w => k.run { w with mem := Function.update w.mem p (f (w.mem p)) }
  | act f k, w => (k w.state).run { w with state := f w.state }
  | input k, w => (k (w.answer 0)).run { w with answer := fun i => w.answer (i + 1) }

/-- The pages that a run reads, in order. -/
def Comp.loads : Comp P V σ R α → World P V σ R → List P
  | ret _, _ => []
  | panic _, _ => []
  | alloc k, w => (k w.offer).loads w.allocated
  | free p k, w => k.loads { w with free := p :: w.free }
  | load p k, w => p :: (k (w.mem p)).loads w
  | modify p f k, w => k.loads { w with mem := Function.update w.mem p (f (w.mem p)) }
  | act f k, w => (k w.state).loads { w with state := f w.state }
  | input k, w => (k (w.answer 0)).loads { w with answer := fun i => w.answer (i + 1) }

theorem Comp.run_bind {c : Comp P V σ R α} {f : α → Comp P V σ R β} {w w' : World P V σ R} {a : α}
    (h : c.run w = (.returned a, w')) : (c.bind f).run w = (f a).run w' := by
  induction c generalizing w with
  | ret b =>
      obtain ⟨hb, rfl⟩ := Prod.mk.inj h
      obtain rfl := Result.returned.inj hb
      rfl
  | panic message => exact absurd (Prod.mk.inj h).1 (by simp)
  | alloc k ih => exact ih _ h
  | free p k ih => exact ih h
  | load p k ih => exact ih _ h
  | modify p g k ih => exact ih h
  | act g k ih => exact ih _ h
  | input k ih => exact ih _ h

theorem Comp.run_bind_congr {c : Comp P V σ R α} {f g : α → Comp P V σ R β} {w : World P V σ R}
    (h : ∀ a w, (f a).run w = (g a).run w) : (c.bind f).run w = (c.bind g).run w := by
  induction c generalizing w with
  | ret a => exact h a w
  | panic message => rfl
  | alloc k ih => exact ih _
  | free p k ih => exact ih
  | load p k ih => exact ih _
  | modify p f k ih => exact ih
  | act f k ih => exact ih _
  | input k ih => exact ih _

theorem Comp.run_bind_panicked {c : Comp P V σ R α} {f : α → Comp P V σ R β}
    {w w' : World P V σ R} {message : String} (h : c.run w = (.panicked message, w')) :
    (c.bind f).run w = (.panicked message, w') := by
  induction c generalizing w with
  | ret a => exact absurd (Prod.mk.inj h).1 (by simp)
  | panic message' =>
      obtain ⟨hmessage, rfl⟩ := Prod.mk.inj h
      obtain rfl := Result.panicked.inj hmessage
      rfl
  | alloc k ih => exact ih _ h
  | free p k ih => exact ih h
  | load p k ih => exact ih _ h
  | modify p g k ih => exact ih h
  | act g k ih => exact ih _ h
  | input k ih => exact ih _ h

/-- Computations that run alike may be replaced. -/
theorem Comp.run_bind_left {c c' : Comp P V σ R α} {f : α → Comp P V σ R β} {w : World P V σ R}
    (h : c.run w = c'.run w) : (c.bind f).run w = (c'.bind f).run w := by
  rcases hrun : c.run w with ⟨result, w'⟩
  cases result with
  | returned a => rw [run_bind hrun, run_bind (h ▸ hrun)]
  | panicked message => rw [run_bind_panicked hrun, run_bind_panicked (h ▸ hrun)]

theorem Comp.loads_bind {c : Comp P V σ R α} {f : α → Comp P V σ R β} {w w' : World P V σ R}
    {a : α} (h : c.run w = (.returned a, w')) :
    (c.bind f).loads w = c.loads w ++ (f a).loads w' := by
  induction c generalizing w with
  | ret b =>
      obtain ⟨hb, rfl⟩ := Prod.mk.inj h
      obtain rfl := Result.returned.inj hb
      rfl
  | panic message => exact absurd (Prod.mk.inj h).1 (by simp)
  | alloc k ih => exact ih _ h
  | free p k ih => exact ih h
  | load p k ih => exact congrArg (p :: ·) (ih _ h)
  | modify p g k ih => exact ih h
  | act g k ih => exact ih _ h
  | input k ih => exact ih _ h

/-- What the first part reads is read, however it ends. -/
theorem Comp.mem_loads_bind {c : Comp P V σ R α} {f : α → Comp P V σ R β} {w : World P V σ R}
    {p : P} (h : p ∈ c.loads w) : p ∈ (c.bind f).loads w := by
  induction c generalizing w with
  | ret b => simp [loads] at h
  | panic message => simp [loads] at h
  | alloc k ih => exact ih _ h
  | free q k ih => exact ih h
  | load q k ih =>
      rcases List.mem_cons.mp h with rfl | hmem
      · exact List.mem_cons_self
      · exact List.mem_cons_of_mem q (ih _ hmem)
  | modify q g k ih => exact ih h
  | act g k ih => exact ih _ h
  | input k ih => exact ih _ h

/-! ## What a computation knows -/

/-- The pages that a computation owns, the memory, of which it may look at these pages
only, what it knows of the state, and whether an allocation has failed. -/
structure View (P V G : Type) where
  owned : Multiset P
  mem : P → V
  ghost : G
  failed : Bool

/-- The rules for what is not a matter of pages: the pages that there are, the answers that
may come, how many pages the computation gets before an allocation fails (0 if it may
always fail), when a panic is tolerated, and what has to hold before an act. -/
structure Logic (P V σ R G : Type) where
  arena : P → Prop
  answers : R → Prop
  enough : ℕ
  panics : View P V G → Prop
  act : (σ → σ) → (σ → View P V G → Prop) → View P V G → Prop
  act_mono : ∀ f post post' v, (∀ s v, post s v → post' s v) → act f post v → act f post' v

namespace Logic

variable (L : Logic P V σ R G)

/-- From view `v` the computation does what it may, and ends in `Q`. -/
def Safe : Comp P V σ R α → (α → View P V G → Prop) → View P V G → Prop
  | .ret a, Q, v => Q a v
  | .panic _, _, v => L.panics v
  | .alloc k, Q, v =>
      (L.enough ≤ v.owned.card → Safe (k none) Q { v with failed := true }) ∧
        ∀ p x, L.arena p → p ∉ v.owned →
          Safe (k (some p)) Q { v with owned := p ::ₘ v.owned, mem := Function.update v.mem p x }
  | .free p k, Q, v => p ∈ v.owned ∧ Safe k Q { v with owned := v.owned.erase p }
  | .load p k, Q, v => p ∈ v.owned ∧ Safe (k (v.mem p)) Q v
  | .modify p f k, Q, v =>
      p ∈ v.owned ∧ Safe k Q { v with mem := Function.update v.mem p (f (v.mem p)) }
  | .act f k, Q, v => L.act f (fun s v => Safe (k s) Q v) v
  | .input k, Q, v => ∀ r, L.answers r → Safe (k r) Q v

variable {L} {Q Q' : α → View P V G → Prop} {v : View P V G} {c : Comp P V σ R α} {p : P} {x : V}

@[simp] theorem safe_ret {a : α} : L.Safe (.ret a : Comp P V σ R α) Q v ↔ Q a v := Iff.rfl

@[simp] theorem safe_panic {message : String} :
    L.Safe (.panic message : Comp P V σ R α) Q v ↔ L.panics v := Iff.rfl

@[simp] theorem safe_bind {f : α → Comp P V σ R β} {Q : β → View P V G → Prop} :
    L.Safe (c.bind f) Q v ↔ L.Safe c (fun a v => L.Safe (f a) Q v) v := by
  induction c generalizing v with
  | ret a => rfl
  | panic message => rfl
  | alloc k ih => simp only [Comp.bind, Safe, ih]
  | free p k ih => simp only [Comp.bind, Safe, ih]
  | load p k ih => simp only [Comp.bind, Safe, ih]
  | modify p g k ih => simp only [Comp.bind, Safe, ih]
  | act g k ih => simp only [Comp.bind, Safe, ih]
  | input k ih => simp only [Comp.bind, Safe, ih]

theorem Safe.mono (h : L.Safe c Q v) (himp : ∀ a v, Q a v → Q' a v) : L.Safe c Q' v := by
  induction c generalizing v with
  | ret a => exact himp a v h
  | panic message => exact h
  | alloc k ih =>
      exact ⟨fun hfew => ih none (h.1 hfew), fun p x hp hnew => ih (some p) (h.2 p x hp hnew)⟩
  | free p k ih => exact ⟨h.1, ih h.2⟩
  | load p k ih => exact ⟨h.1, ih _ h.2⟩
  | modify p g k ih => exact ⟨h.1, ih h.2⟩
  | act g k ih => exact L.act_mono g _ _ v (fun s v hs => ih s hs) h
  | input k ih => exact fun r hr => ih r (h r hr)

end Logic

/-! ## One computation at a time -/

/-- The logic of a computation that nobody disturbs: it knows the state. -/
def sequential (arena : P → Prop) (answers : R → Prop) (enough : ℕ)
    (panics : View P V σ → Prop) : Logic P V σ R σ where
  arena := arena
  answers := answers
  enough := enough
  panics := panics
  act f post v := post v.ghost { v with ghost := f v.ghost }
  act_mono _ _ _ _ himp h := himp _ _ h

/-- What the computation sees of a world in which it owns these pages. -/
def World.view (w : World P V σ R) (owned : Multiset P) : View P V σ :=
  ⟨owned, w.mem, w.state, w.failed⟩

/-- Nothing is both free and owned, and all of it exists. -/
structure World.Owns (arena : P → Prop) (w : World P V σ R) (owned : Multiset P) : Prop where
  nodup : ((w.free : Multiset P) + owned).Nodup
  arena : ∀ p ∈ (w.free : Multiset P) + owned, arena p

/-- As long as fewer pages are owned, an allocation does not fail. -/
def World.Has (w : World P V σ R) (owned : Multiset P) (enough : ℕ) : Prop :=
  enough = 0 ∨ (∀ i, w.refuse i = false) ∧ enough ≤ w.free.length + owned.card

/-- What a safe computation leaves behind: the same pages are free or owned, and no
other page has changed. -/
structure World.Kept (w w' : World P V σ R) (owned owned' : Multiset P) : Prop where
  pages : (w'.free : Multiset P) + owned' = w.free + owned
  others : ∀ p, p ∉ (w.free : Multiset P) + owned → w'.mem p = w.mem p

/-- A safe computation ends in its postcondition or in a tolerated panic. -/
def Ends (panics : View P V σ → Prop) (Q : α → View P V σ → Prop) (w : World P V σ R)
    (owned : Multiset P) : Result α × World P V σ R → Prop
  | (.returned a, w') => ∃ owned', Q a (w'.view owned') ∧ w.Kept w' owned owned'
  | (.panicked _, w') => ∃ owned', panics (w'.view owned')

variable {arena : P → Prop} {panics : View P V σ → Prop} {Q : α → View P V σ → Prop}
variable {w w₁ : World P V σ R} {owned owned₁ : Multiset P} {c : Comp P V σ R α} {enough : ℕ}
variable {answers : R → Prop}

omit [DecidableEq P] in
theorem World.Kept.refl : w.Kept w owned owned := ⟨rfl, fun _ _ => rfl⟩

omit [DecidableEq P] in
theorem Ends.trans {r : Result α × World P V σ R} (h : Ends panics Q w₁ owned₁ r)
    (hkept : w.Kept w₁ owned owned₁) : Ends panics Q w owned r := by
  obtain ⟨result, w'⟩ := r
  cases result with
  | returned a =>
      obtain ⟨owned', hQ, hkept'⟩ := h
      refine ⟨owned', hQ, hkept'.pages.trans hkept.pages, fun p hp => ?_⟩
      rw [hkept'.others p (by rwa [hkept.pages]), hkept.others p hp]
  | panicked message => exact h

omit [DecidableEq P] in
theorem World.allocated_free_of_none (h : w.offer = none) : w.allocated.free = w.free := by
  unfold World.offer at h
  unfold World.allocated
  split at h
  · rename_i hrefuse
    simp [hrefuse]
  · rename_i hrefuse
    simp [hrefuse, List.head?_eq_none_iff.mp h]

omit [DecidableEq P] in
theorem World.free_eq_of_some {p : P} (h : w.offer = some p) : w.free = p :: w.allocated.free := by
  unfold World.offer at h
  unfold World.allocated
  split at h
  · simp at h
  · rename_i hrefuse
    obtain ⟨rest, hrest⟩ := List.head?_eq_some_iff.mp h
    simp [hrefuse, hrest]

omit [DecidableEq P] in
theorem World.Has.keep (h : w.Has owned enough) (hrefuse : ∀ i, ∃ j, w₁.refuse i = w.refuse j)
    (hpages : (w₁.free : Multiset P) + owned₁ = w.free + owned) : w₁.Has owned₁ enough := by
  have hcard := congrArg Multiset.card hpages
  simp only [Multiset.card_add, Multiset.coe_card] at hcard
  refine h.imp_right fun hhas => ⟨fun i => ?_, hcard ▸ hhas.2⟩
  obtain ⟨j, hj⟩ := hrefuse i
  rw [hj, hhas.1 j]

omit [DecidableEq P] in
/-- An allocation fails only if all pages are owned. -/
theorem World.Has.le_of_none (h : w.Has owned enough) (hoffer : w.offer = none) :
    enough ≤ owned.card := by
  rcases h with hzero | ⟨hrefuse, hle⟩
  · omega
  · rw [World.offer, hrefuse 0] at hoffer
    have hnil : w.free = [] := by simpa using hoffer
    simpa [hnil] using hle

/-- A safe computation does in a world what its view of it says. -/
theorem Logic.Safe.run (hsafe : (sequential arena answers enough panics).Safe c Q (w.view owned))
    (howns : w.Owns arena owned) (hhas : w.Has owned enough)
    (hanswers : ∀ i, answers (w.answer i)) : Ends panics Q w owned (c.run w) := by
  induction c generalizing w owned with
  | ret a => exact ⟨owned, hsafe, World.Kept.refl⟩
  | panic message => exact ⟨owned, hsafe⟩
  | alloc k ih =>
      cases hoffer : w.offer with
      | none =>
          have hfree := World.allocated_free_of_none hoffer
          have hrest : (sequential arena answers enough panics).Safe (k none) Q
              (w.allocated.view owned) := by
            have hview : w.allocated.view owned = { w.view owned with failed := true } := by
              simp [World.view, World.allocated, hoffer]
            rw [hview]
            exact hsafe.1 (hhas.le_of_none hoffer)
          have hends := ih none hrest ⟨by rw [hfree]; exact howns.nodup, by
            rw [hfree]; exact howns.arena⟩ (hhas.keep (fun i => ⟨i + 1, rfl⟩) (by rw [hfree]))
            hanswers
          rw [Comp.run, hoffer]
          exact hends.trans ⟨by rw [hfree], fun p _ => rfl⟩
      | some p =>
          have hfree := World.free_eq_of_some hoffer
          have hnodup := howns.nodup
          rw [hfree, ← Multiset.cons_coe, Multiset.cons_add, Multiset.nodup_cons] at hnodup
          have hnew : p ∉ owned := fun hp => hnodup.1 (Multiset.mem_add.mpr (Or.inr hp))
          have hrest : (sequential arena answers enough panics).Safe (k (some p)) Q
              (w.allocated.view (p ::ₘ owned)) := by
            have hview : w.allocated.view (p ::ₘ owned) =
                { w.view owned with
                  owned := p ::ₘ owned
                  mem := Function.update w.mem p (w.mem p) } := by
              simp [World.view, World.allocated, hoffer]
            rw [hview]
            exact hsafe.2 p (w.mem p) (howns.arena p (by simp [hfree])) hnew
          have hpages : (w.allocated.free : Multiset P) + p ::ₘ owned = w.free + owned := by
            rw [hfree, ← Multiset.cons_coe, Multiset.add_cons, Multiset.cons_add]
          have hends := ih (some p) hrest ⟨by rw [hpages]; exact howns.nodup, by
            rw [hpages]; exact howns.arena⟩ (hhas.keep (fun i => ⟨i + 1, rfl⟩) hpages) hanswers
          rw [Comp.run, hoffer]
          exact hends.trans ⟨hpages, fun q _ => rfl⟩
  | free p k ih =>
      let w₁ : World P V σ R := { w with free := p :: w.free }
      have hp : p ∈ owned := hsafe.1
      have hrest : (sequential arena answers enough panics).Safe k Q (w₁.view (owned.erase p)) :=
        hsafe.2
      have hpages : (w₁.free : Multiset P) + owned.erase p = w.free + owned := by
        rw [← Multiset.cons_coe, Multiset.cons_add, ← Multiset.add_cons, Multiset.cons_erase hp]
      have hends := ih hrest ⟨by rw [hpages]; exact howns.nodup, by rw [hpages]; exact howns.arena⟩
        (hhas.keep (fun i => ⟨i, rfl⟩) hpages) hanswers
      exact hends.trans ⟨hpages, fun q _ => rfl⟩
  | load p k ih => exact ih (w.mem p) hsafe.2 howns hhas hanswers
  | modify p f k ih =>
      let w₁ : World P V σ R := { w with mem := Function.update w.mem p (f (w.mem p)) }
      have hp : p ∈ owned := hsafe.1
      have hrest : (sequential arena answers enough panics).Safe k Q (w₁.view owned) := hsafe.2
      have hends := ih hrest ⟨howns.nodup, howns.arena⟩ hhas hanswers
      refine hends.trans ⟨rfl, fun q hq => Function.update_of_ne ?_ _ _⟩
      rintro rfl
      exact hq (Multiset.mem_add.mpr (Or.inr hp))
  | act f k ih =>
      let w₁ : World P V σ R := { w with state := f w.state }
      have hrest : (sequential arena answers enough panics).Safe (k w.state) Q (w₁.view owned) :=
        hsafe
      have hends := ih w.state hrest ⟨howns.nodup, howns.arena⟩ hhas hanswers
      exact hends.trans ⟨rfl, fun q _ => rfl⟩
  | input k ih =>
      let w₁ : World P V σ R := { w with answer := fun i => w.answer (i + 1) }
      have hrest :
          (sequential arena answers enough panics).Safe (k (w.answer 0)) Q (w₁.view owned) :=
        hsafe _ (hanswers 0)
      have hends := ih (w.answer 0) hrest ⟨howns.nodup, howns.arena⟩ hhas fun i => hanswers (i + 1)
      exact hends.trans ⟨rfl, fun q _ => rfl⟩

end Allocation
