import Mathlib.Data.List.Nodup
import Mathlib.Data.Nat.Notation
import Mathlib.Logic.Function.Iterate
import Mathlib.Tactic.Common

/-!
# Circular doubly linked lists

The nodes of such a list are joined by two maps, `next` and `prev`.
`Segment links x l y` says that the links lead from `x` over the nodes of `l` to
`y` and back, and `Ring links head l` that they lead from `head` over `l` back to
`head`, without meeting a node twice.

A program changes a ring by taking a node out (`Ring.unlink`) and by putting a
node behind the head (`Ring.insert`), and it reads one by going round it in
either direction until a node passes a test (`Ring.search_next`,
`Ring.search_prev`).
-/

namespace Linked

structure Links (ν : Type*) where
  next : ν → ν
  prev : ν → ν

variable {ν : Type*}

namespace Links

variable [DecidableEq ν] (links : Links ν) (head b : ν)

/-- `b->next->prev = b->prev; b->prev->next = b->next;` -/
def unlink : Links ν where
  prev := Function.update links.prev (links.next b) (links.prev b)
  next := Function.update links.next (links.prev b) (links.next b)

/-- `b->next = head.next; b->prev = &head; head.next->prev = b; head.next = b;` -/
def insert : Links ν where
  prev := Function.update (Function.update links.prev b head) (links.next head) b
  next := Function.update (Function.update links.next b (links.next head)) head b

end Links

/-- The links of the other direction. -/
def Links.flip (links : Links ν) : Links ν where
  next := links.prev
  prev := links.next

/-- The links lead from `x` over `l` to `y`, and back. -/
def Segment (links : Links ν) (x : ν) : List ν → ν → Prop
  | [], y => links.next x = y ∧ links.prev y = x
  | a :: l, y => links.next x = a ∧ links.prev a = x ∧ Segment links a l y

/-- The links lead from `head` over all nodes of `l` back to `head`. -/
structure Ring (links : Links ν) (head : ν) (l : List ν) : Prop where
  segment : Segment links head l head
  nodup : (head :: l).Nodup

variable {links links' : Links ν} {x y head b : ν} {l l₁ l₂ : List ν}

/-! ## Segments -/

theorem Segment.congr (h : Segment links x l y) (hnext : ∀ z ∈ x :: l, links'.next z = links.next z)
    (hprev : ∀ z ∈ l ++ [y], links'.prev z = links.prev z) : Segment links' x l y := by
  induction l generalizing x with
  | nil =>
      obtain ⟨hx, hy⟩ := h
      exact ⟨by rw [hnext x (by simp), hx], by rw [hprev y (by simp), hy]⟩
  | cons a l ih =>
      obtain ⟨hx, ha, hrest⟩ := h
      refine ⟨by rw [hnext x (by simp), hx], by rw [hprev a (by simp), ha], ih hrest ?_ ?_⟩
      · exact fun z hz => hnext z (List.mem_cons_of_mem x hz)
      · exact fun z hz => hprev z (List.mem_cons_of_mem a hz)

theorem segment_append :
    Segment links x (l₁ ++ b :: l₂) y ↔ Segment links x l₁ b ∧ Segment links b l₂ y := by
  induction l₁ generalizing x with
  | nil => simp [Segment, and_assoc]
  | cons a l₁ ih => simp [Segment, ih, and_assoc]

/-- Read from its other end. -/
theorem Segment.flip (h : Segment links x l y) : Segment links.flip y l.reverse x := by
  induction l generalizing x with
  | nil => exact ⟨h.2, h.1⟩
  | cons a l ih =>
      obtain ⟨hx, ha, hrest⟩ := h
      rw [List.reverse_cons]
      exact segment_append.mpr ⟨ih hrest, ha, hx⟩

/-- What comes before the end of a segment. -/
theorem Segment.prev_mem (h : Segment links x l y) : links.prev y ∈ x :: l := by
  induction l generalizing x with
  | nil => simp [h.2]
  | cons a l ih => exact List.mem_cons_of_mem x (ih h.2.2)

theorem Segment.next_mem (h : Segment links x l y) : links.next x ∈ l ++ [y] := by
  cases l with
  | nil => simp [h.1]
  | cons a l => simp [h.1]

/-- Each link leads there and back. -/
theorem Segment.prev_next (h : Segment links x l y) {z : ν} (hz : z ∈ x :: l) :
    links.prev (links.next z) = z := by
  induction l generalizing x with
  | nil =>
      obtain rfl : z = x := by simpa using hz
      rw [h.1, h.2]
  | cons a l ih =>
      rcases List.mem_cons.mp hz with rfl | hz
      · rw [h.1, h.2.1]
      · exact ih h.2.2 hz

/-! ## Changing a ring -/

section Change

variable [DecidableEq ν]

/-- Without `b` the two parts of a segment are joined. -/
theorem Segment.unlink (h₁ : Segment links x l₁ b) (h₂ : Segment links b l₂ y)
    (hnodup : (l₁ ++ b :: l₂).Nodup) (hx : x ∉ l₁ ++ b :: l₂) (hy : y ∉ l₁ ++ b :: l₂) :
    Segment (links.unlink b) x (l₁ ++ l₂) y := by
  induction l₁ generalizing x with
  | nil =>
      have hprev : links.prev b = x := h₁.2
      cases l₂ with
      | nil =>
          have hnext : links.next b = y := h₂.1
          simp [Segment, Links.unlink, hprev, hnext]
      | cons a l₂ =>
          obtain ⟨hnext, -, hrest⟩ := h₂
          obtain ⟨-, ha, -⟩ : b ∉ a :: l₂ ∧ a ∉ l₂ ∧ l₂.Nodup := by simpa using hnodup
          refine ⟨by simp [Links.unlink, hprev, hnext], by simp [Links.unlink, hprev, hnext], ?_⟩
          refine hrest.congr (fun z hz => ?_) fun z hz => ?_
          · have : z ≠ x := by
              rintro rfl
              exact hx (by simpa using Or.inr hz)
            simp [Links.unlink, hprev, this]
          · have : z ≠ a := by
              rintro rfl
              rcases List.mem_append.mp hz with hz | hz
              · exact ha hz
              · obtain rfl := List.mem_singleton.mp hz
                exact hy (by simp)
            simp [Links.unlink, hnext, this]
  | cons c l₁ ih =>
      obtain ⟨hxc, hcx, hrest⟩ := h₁
      rw [List.cons_append, List.nodup_cons] at hnodup
      have hjoin := ih hrest hnodup.2 hnodup.1 fun hmem => hy (List.mem_cons_of_mem c hmem)
      -- the links that change are those after `c`
      have hnext : x ≠ links.prev b := by
        intro heq
        have hmem := hrest.prev_mem
        rw [← heq] at hmem
        exact hx (List.mem_append_left (b :: l₂) hmem)
      have hprev : c ≠ links.next b := by
        intro heq
        have hmem := h₂.next_mem
        rw [← heq] at hmem
        rcases List.mem_append.mp hmem with hmem | hmem
        · exact hnodup.1 (by simp [hmem])
        · obtain rfl := List.mem_singleton.mp hmem
          exact hy (by simp)
      exact ⟨by simp [Links.unlink, hnext, hxc], by simp [Links.unlink, hprev, hcx], hjoin⟩

theorem Ring.unlink (h : Ring links head (l₁ ++ b :: l₂)) :
    Ring (links.unlink b) head (l₁ ++ l₂) := by
  obtain ⟨hhead, hnodup⟩ := List.nodup_cons.mp h.nodup
  obtain ⟨h₁, h₂⟩ := segment_append.mp h.segment
  refine ⟨h₁.unlink h₂ hnodup hhead hhead, List.nodup_cons.mpr ⟨fun hmem => hhead ?_, ?_⟩⟩
  · exact ((List.sublist_cons_self b l₂).append_left l₁).subset hmem
  · exact hnodup.sublist ((List.sublist_cons_self b l₂).append_left l₁)

theorem Ring.insert (h : Ring links head l) (hb : b ∉ head :: l) :
    Ring (links.insert head b) head (b :: l) := by
  obtain ⟨hhead, hnodup⟩ := List.nodup_cons.mp h.nodup
  have hbhead : b ≠ head := fun heq => hb (by simp [heq])
  have hbl : b ∉ l := fun hmem => hb (List.mem_cons_of_mem head hmem)
  refine ⟨⟨by simp [Links.insert], ?_, ?_⟩, ?_⟩
  · have hne : b ≠ links.next head := by
      intro heq
      have hmem := h.segment.next_mem
      rw [← heq] at hmem
      simp [hbl, hbhead] at hmem
    simp [Links.insert, hne]
  · have hsegment := h.segment
    cases hl : l with
    | nil =>
        rw [hl] at hsegment
        have hnext : links.next head = head := hsegment.1
        simp [Segment, Links.insert, hnext, hbhead]
    | cons a rest =>
        rw [hl] at hsegment hhead hnodup hbl
        obtain ⟨hnext, -, hrest⟩ := hsegment
        simp only [List.mem_cons, not_or] at hhead hbl
        refine ⟨by simp [Links.insert, hnext, hbhead], by simp [Links.insert, hnext], ?_⟩
        refine hrest.congr (fun z hz => ?_) fun z hz => ?_
        · have hzb : z ≠ b := by
            rintro rfl
            simp [hbl] at hz
          have hzh : z ≠ head := by
            rintro rfl
            simp [hhead] at hz
          simp [Links.insert, hzb, hzh]
        · have hzb : z ≠ b := by
            rintro rfl
            simp [hbl, hbhead] at hz
          have hza : z ≠ a := by
            rintro rfl
            simp [(List.nodup_cons.mp hnodup).1, Ne.symm hhead.1] at hz
          simp [Links.insert, hzb, hnext, hza]
  · rw [List.nodup_cons, List.mem_cons, not_or]
    exact ⟨⟨hbhead.symm, hhead⟩, List.nodup_cons.mpr ⟨hbl, hnodup⟩⟩

omit [DecidableEq ν] in
theorem Ring.empty (links : Links ν) (hnext : links.next head = head)
    (hprev : links.prev head = head) :
    Ring links head [] :=
  ⟨⟨hnext, hprev⟩, List.nodup_singleton head⟩

variable (l₁) in
/-- A ring built by putting in one node after another. -/
theorem Ring.foldl_insert (h : Ring links head l) (hnodup : (l₁.reverse ++ l).Nodup)
    (hhead : head ∉ l₁) :
    Ring (l₁.foldl (fun links b => links.insert head b) links) head (l₁.reverse ++ l) := by
  induction l₁ generalizing links l with
  | nil => exact h
  | cons b l₁ ih =>
      rw [List.reverse_cons, List.append_assoc] at hnodup ⊢
      simp only [List.mem_cons, not_or] at hhead
      have hb : b ∉ l := (List.nodup_cons.mp (List.nodup_append.mp hnodup).2.1).1
      exact ih (h.insert (by simp [Ne.symm hhead.1, hb])) hnodup hhead.2

end Change

/-! ## Going round a ring -/

/-- How a search ends: with a node that passes the test, back at the head, or
not within the number of steps allowed. -/
inductive Search (ν : Type*) where
  | found (b : ν)
  | absent
  | endless

/-- `for(b = x; b != &head; b = step(b)) if(test(b)) ...` -/
def search [DecidableEq ν] (step : ν → ν) (head : ν) (test : ν → Bool) : ℕ → ν → Search ν
  | 0, _ => .endless
  | fuel + 1, x =>
      if x = head then .absent
      else if test x then .found x
      else search step head test fuel (step x)

/-- What a search gives that meets the nodes of `l` before it is back at the head. -/
def Search.of (test : ν → Bool) (l : List ν) : Search ν :=
  match l.find? test with
  | some b => .found b
  | none => .absent

theorem Segment.search [DecidableEq ν] {test : ν → Bool} {fuel : ℕ} (h : Segment links x l head)
    (hhead : head ∉ l) (hfuel : l.length < fuel) :
    Linked.search links.next head test fuel (links.next x) = Search.of test l := by
  induction l generalizing x fuel with
  | nil =>
      obtain ⟨k, rfl⟩ : ∃ k, fuel = k + 1 := ⟨fuel - 1, by simp at hfuel; omega⟩
      simp [Linked.search, h.1, Search.of]
  | cons a l ih =>
      obtain ⟨k, rfl⟩ : ∃ k, fuel = k + 1 := ⟨fuel - 1, by simp at hfuel; omega⟩
      simp only [List.mem_cons, not_or] at hhead
      rw [h.1, Linked.search, if_neg (Ne.symm hhead.1)]
      by_cases htest : test a
      · simp [htest, Search.of]
      · rw [if_neg htest, ih h.2.2 hhead.2 (by simpa using hfuel)]
        simp [Search.of, htest]

/-- A search along `next` meets the nodes in their order. -/
theorem Ring.search_next [DecidableEq ν] {test : ν → Bool} {fuel : ℕ} (h : Ring links head l)
    (hfuel : l.length < fuel) :
    search links.next head test fuel (links.next head) = Search.of test l :=
  h.segment.search (List.nodup_cons.mp h.nodup).1 hfuel

/-- A search along `prev` meets the last node first. -/
theorem Ring.search_prev [DecidableEq ν] {test : ν → Bool} {fuel : ℕ} (h : Ring links head l)
    (hfuel : l.length < fuel) :
    search links.prev head test fuel (links.prev head) = Search.of test l.reverse :=
  h.segment.flip.search (by simpa using (List.nodup_cons.mp h.nodup).1) (by simpa using hfuel)

/-- One round: each step along `next` comes to the node that is listed next. -/
theorem Segment.iterate (h : Segment links x l y) (k : ℕ) (hk : k ≤ l.length) :
    (l ++ [y])[k]? = some (links.next^[k + 1] x) := by
  induction l generalizing x k with
  | nil =>
      obtain rfl : k = 0 := by simpa using hk
      simp [h.1]
  | cons a l ih =>
      cases k with
      | zero => simp [h.1]
      | succ k =>
          rw [Function.iterate_succ_apply, h.1, ← ih h.2.2 k (by simpa using hk)]
          simp

theorem Ring.round (h : Ring links head l) :
    (List.range l.length).map (fun k => links.next^[k + 1] head) = l ∧
      links.next^[l.length + 1] head = head := by
  constructor
  · refine List.ext_getElem? fun k => ?_
    rcases Nat.lt_or_ge k l.length with hk | hk
    · rw [List.getElem?_map, List.getElem?_range hk, Option.map_some,
        ← h.segment.iterate k (Nat.le_of_lt hk), List.getElem?_append_left hk]
    · rw [List.getElem?_eq_none hk, List.getElem?_eq_none (by simpa using hk)]
  · have hlast := h.segment.iterate l.length (Nat.le_refl _)
    simpa using hlast.symm

theorem Ring.prev_next (h : Ring links head l) {z : ν} (hz : z ∈ head :: l) :
    links.prev (links.next z) = z :=
  h.segment.prev_next hz

theorem Ring.next_prev (h : Ring links head l) {z : ν} (hz : z ∈ head :: l) :
    links.next (links.prev z) = z :=
  h.segment.flip.prev_next (by simpa using hz)

end Linked
