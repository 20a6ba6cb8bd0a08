import Mathlib.Algebra.BigOperators.Group.Finset.Basic
import Mathlib.Algebra.Order.BigOperators.Group.Finset
import Mathlib.Algebra.Order.Group.Multiset
import Mathlib.Data.Fintype.BigOperators

/-!
# Reference counts

Holders have references to objects, and `holds e` are those of holder `e`.  `Counted`
says that a count that is kept for each object is the number of references to it.  The
rules follow what a program does: take a reference (`gain`), give one up (`drop`), and
hand one on within a holder (`congr`).

References often stand in an array with empty places; `slots` are those of such an array.
-/

namespace References

variable {η ι α : Type*} [Fintype η] [DecidableEq η] [Fintype ι] [DecidableEq ι] [DecidableEq α]
variable {holds holds' : η → Multiset α} {ref ref' : α → ℕ} {e e' : η} {x y : α}

/-- All references. -/
def total (holds : η → Multiset α) : Multiset α := ∑ e, holds e

def Counted (ref : α → ℕ) (holds : η → Multiset α) : Prop := ∀ x, ref x = (total holds).count x

omit [DecidableEq α] in
/-- One holder changes. -/
theorem total_change (holds holds' : η → Multiset α) (e : η)
    (hother : ∀ e', e' ≠ e → holds' e' = holds e') :
    total holds' + holds e = total holds + holds' e := by
  have hmem : e ∈ Finset.univ := Finset.mem_univ e
  have hrest : ∑ e' ∈ Finset.univ.erase e, holds' e' = ∑ e' ∈ Finset.univ.erase e, holds e' :=
    Finset.sum_congr rfl fun e' he' => hother e' (Finset.ne_of_mem_erase he')
  rw [total, total, ← Finset.add_sum_erase _ _ hmem, ← Finset.add_sum_erase _ holds hmem, hrest]
  ac_rfl

namespace Counted

omit [DecidableEq η] in
theorem congr (h : Counted ref holds) (href : ∀ x, ref' x = ref x)
    (hholds : ∀ e, holds' e = holds e) : Counted ref' holds' := fun x => by
  rw [href, h x, total, total, Finset.sum_congr rfl fun e _ => hholds e]

theorem gain (h : Counted ref holds) (hother : ∀ e', e' ≠ e → holds' e' = holds e')
    (hself : holds' e = x ::ₘ holds e) (href : ∀ y, ref' y = if y = x then ref x + 1 else ref y) :
    Counted ref' holds' := by
  intro y
  have hchange := congrArg (Multiset.count y) (total_change _ _ _ hother)
  rw [hself, Multiset.count_add, Multiset.count_add, Multiset.count_cons] at hchange
  rw [href y]
  by_cases hy : y = x
  · subst hy
    rw [if_pos rfl] at hchange ⊢
    rw [h y]
    omega
  · rw [if_neg hy] at hchange ⊢
    rw [h y]
    omega

theorem drop (h : Counted ref holds) (hother : ∀ e', e' ≠ e → holds' e' = holds e')
    (hself : holds e = x ::ₘ holds' e) (href : ∀ y, ref' y = if y = x then ref x - 1 else ref y) :
    Counted ref' holds' := by
  intro y
  have hchange := congrArg (Multiset.count y) (total_change _ _ _ hother)
  rw [hself, Multiset.count_add, Multiset.count_add, Multiset.count_cons] at hchange
  rw [href y]
  by_cases hy : y = x
  · subst hy
    rw [if_pos rfl] at hchange ⊢
    rw [h y]
    omega
  · rw [if_neg hy] at hchange ⊢
    rw [h y]
    omega

/-- A holder hands a reference on to another one. -/
theorem pass (h : Counted ref holds) (hne : e ≠ e')
    (hother : ∀ e'', e'' ≠ e → e'' ≠ e' → holds' e'' = holds e'')
    (hfrom : holds e = x ::ₘ holds' e) (hto : holds' e' = x ::ₘ holds e') :
    Counted ref holds' := by
  have hgain : Counted (fun y => if y = x then ref x + 1 else ref y)
      (Function.update holds e' (x ::ₘ holds e')) :=
    h.gain (fun e'' he'' => Function.update_of_ne he'' ..) (Function.update_self ..) fun _ => rfl
  refine hgain.drop (e := e) (x := x) (fun e'' he'' => ?_) ?_ fun y => ?_
  · by_cases heq : e'' = e'
    · subst heq
      rw [Function.update_self, hto]
    · rw [Function.update_of_ne heq, hother e'' he'' heq]
  · rw [Function.update_of_ne hne, hfrom]
  · by_cases hy : y = x
    · rw [if_pos hy, if_pos rfl, hy, Nat.add_sub_cancel]
    · rw [if_neg hy, if_neg hy]

/-- A holder hands many references on to another one. -/
theorem share {m : Multiset α} (h : Counted ref holds) (hne : e ≠ e')
    (hother : ∀ e'', e'' ≠ e → e'' ≠ e' → holds' e'' = holds e'')
    (hfrom : holds e = m + holds' e) (hto : holds' e' = m + holds e') : Counted ref holds' := by
  have hgive := total_change holds (Function.update holds e' (m + holds e')) e'
    fun e'' he'' => Function.update_of_ne he'' ..
  have htake := total_change (Function.update holds e' (m + holds e')) holds' e fun e'' he'' => by
    by_cases heq : e'' = e'
    · rw [heq, Function.update_self, hto]
    · rw [Function.update_of_ne heq, hother e'' he'' heq]
  rw [Function.update_self, ← add_assoc] at hgive
  rw [Function.update_of_ne hne, hfrom, add_right_cancel hgive, ← add_assoc] at htake
  have hsame : total holds' = total holds := add_right_cancel (add_right_cancel htake)
  exact fun x => by rw [h x, hsame]

omit [DecidableEq η] in
theorem count_le (h : Counted ref holds) (e : η) (x : α) : (holds e).count x ≤ ref x := by
  rw [h x]
  exact Multiset.count_le_of_le x
    (Finset.single_le_sum (fun _ _ => Multiset.zero_le _) (Finset.mem_univ e))

omit [DecidableEq η] in
theorem pos (h : Counted ref holds) (hx : x ∈ holds e) : 0 < ref x :=
  (Multiset.count_pos.mpr hx).trans_le (h.count_le e x)

omit [DecidableEq η] in
theorem notMem (h : Counted ref holds) (hzero : ref x = 0) (e : η) : x ∉ holds e := fun hx => by
  have hpos := h.pos hx
  omega

/-- Two holders together do not have more than there are. -/
theorem count_add_le (h : Counted ref holds) (hne : e ≠ e') (x : α) :
    (holds e).count x + (holds e').count x ≤ ref x := by
  rw [h x, ← Multiset.count_add, ← Finset.sum_pair (f := holds) hne]
  exact Multiset.count_le_of_le x (Finset.sum_le_sum_of_subset (Finset.subset_univ _))

/-- Who has the only reference. -/
theorem eq_of_one (h : Counted ref holds) (hone : ref x = 1) (hx : x ∈ holds e)
    (hx' : x ∈ holds e') : e' = e := by
  by_contra hne
  have hle := h.count_add_le (Ne.symm hne) x
  have hpos := Multiset.count_pos.mpr hx
  have hpos' := Multiset.count_pos.mpr hx'
  omega

end Counted

/-! ## Arrays of references -/

/-- The reference in one place. -/
def place (o : Option α) : Multiset α := o.elim 0 fun x => {x}

omit [DecidableEq α] in
@[simp] theorem place_none : place (none : Option α) = 0 := rfl

omit [DecidableEq α] in
@[simp] theorem place_some (x : α) : place (some x) = {x} := rfl

def slots (a : ι → Option α) : Multiset α := ∑ i, place (a i)

omit [DecidableEq α] in
theorem slots_update (a : ι → Option α) (i : ι) (o : Option α) :
    slots (Function.update a i o) + place (a i) = slots a + place o := by
  have hchange : total (fun j => place (Function.update a i o j)) + place (a i) =
      total (fun j => place (a j)) + place (Function.update a i o i) :=
    total_change (fun j => place (a j)) (fun j => place (Function.update a i o j)) i
      fun j hj => by rw [Function.update_of_ne hj]
  rwa [Function.update_self] at hchange

omit [DecidableEq α] in
/-- An empty place is filled. -/
theorem slots_fill {a : ι → Option α} {i : ι} (hi : a i = none) (x : α) :
    slots (Function.update a i (some x)) = x ::ₘ slots a := by
  have hchange := slots_update a i (some x)
  rw [hi, place_none, add_zero, place_some, add_comm, Multiset.singleton_add] at hchange
  exact hchange

omit [DecidableEq α] in
/-- A place is emptied. -/
theorem slots_clear {a : ι → Option α} {i : ι} (hi : a i = some x) :
    slots a = x ::ₘ slots (Function.update a i none) := by
  have hchange := slots_update a i none
  rw [hi, place_none, add_zero, place_some, add_comm, Multiset.singleton_add] at hchange
  exact hchange.symm

omit [DecidableEq ι] in
theorem count_slots (a : ι → Option α) (x : α) :
    (slots a).count x = (Finset.univ.filter fun i => a i = some x).card := by
  rw [slots, Multiset.count_sum', Finset.card_filter]
  refine Finset.sum_congr rfl fun i _ => ?_
  cases h : a i with
  | none => simp
  | some y => simp [Multiset.count_singleton, eq_comm]

omit [DecidableEq ι] in
theorem mem_slots {a : ι → Option α} : x ∈ slots a ↔ ∃ i, a i = some x := by
  rw [← Multiset.count_pos, count_slots, Finset.card_pos]
  simp [Finset.Nonempty]

omit [DecidableEq η] [DecidableEq ι] in
/-- The references in all arrays. -/
theorem count_total_slots (a : η → ι → Option α) (x : α) :
    (total fun e => slots (a e)).count x =
      (Finset.univ.filter fun p : η × ι => a p.1 p.2 = some x).card := by
  rw [total, Multiset.count_sum', Finset.card_filter, Fintype.sum_prod_type]
  refine Finset.sum_congr rfl fun e _ => ?_
  rw [count_slots, Finset.card_filter]

end References
