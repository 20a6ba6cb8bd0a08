import Mathlib.Data.Prod.Lex
import Mathlib.Data.List.FinRange
import Mathlib.Tactic.Order

/-!
# Linear scans of a table

The loops here go once through a list of indices and remember one of them: the
first selected index (`List.find?`), the first selected index of least key
(`least`), or the first index that improves on a given start (`leastFrom`).
The comparison is strict, so that among equal keys the earlier index stays.

On a strictly increasing list each of them computes an order-theoretic notion.
`least` is the least selected element in the lexicographic order of key and
index (`least_eq_some_iff`); `leastFrom` has a key that no selected index
undercuts, and moves away from its start only to a strictly smaller key
(`leastFrom_spec`).
-/

namespace Scan

variable {ι κ : Type*} [LinearOrder κ] (sel : ι → Prop) [DecidablePred sel] (key : ι → κ)

/-- One round of the loop that starts from an index. -/
def improve (best i : ι) : ι :=
  if sel i ∧ key i < key best then i else best

/-- The index kept by a scan that starts from `start`. -/
def leastFrom (start : ι) (l : List ι) : ι :=
  l.foldl (improve sel key) start

/-- One round of the loop that starts without an index. -/
def keepLeast (best : Option ι) (i : ι) : Option ι :=
  if sel i then
    match best with
    | some b => if key i < key b then some i else some b
    | none => some i
  else best

/-- The index kept by a scan that starts without one. -/
def least (l : List ι) : Option ι :=
  l.foldl (keepLeast sel key) none

variable {sel key}

@[simp] theorem leastFrom_nil (start : ι) : leastFrom sel key start [] = start := rfl

@[simp] theorem leastFrom_cons (start i : ι) (l : List ι) :
    leastFrom sel key start (i :: l) = leastFrom sel key (improve sel key start i) l := rfl

theorem improve_key_le (best i : ι) : key (improve sel key best i) ≤ key best := by
  unfold improve
  split
  · rename_i h
    exact h.2.le
  · exact le_rfl

theorem improve_key_le_of_sel {best i : ι} (h : sel i) : key (improve sel key best i) ≤ key i := by
  unfold improve
  split
  · exact le_rfl
  · rename_i hnot
    exact not_lt.mp fun hlt => hnot ⟨h, hlt⟩

variable (sel key) in
/-- The kept key is at most the key of the start and of every selected index. -/
theorem leastFrom_key_le (start : ι) (l : List ι) :
    key (leastFrom sel key start l) ≤ key start ∧
      ∀ i ∈ l, sel i → key (leastFrom sel key start l) ≤ key i := by
  induction l generalizing start with
  | nil => simp
  | cons head rest ih =>
      obtain ⟨hstart, hrest⟩ := ih (improve sel key start head)
      rw [leastFrom_cons]
      refine ⟨hstart.trans (improve_key_le start head), fun i hi hsel => ?_⟩
      rcases List.mem_cons.mp hi with rfl | hi
      · exact hstart.trans (improve_key_le_of_sel hsel)
      · exact hrest i hi hsel

variable (sel key) in
/-- The scan stays at its start, or ends at a selected index whose key is
strictly smaller than those of the start and of every selected index before. -/
theorem leastFrom_eq_or (start : ι) (l : List ι) :
    leastFrom sel key start l = start ∨
      ∃ before after, l = before ++ leastFrom sel key start l :: after ∧
        sel (leastFrom sel key start l) ∧ key (leastFrom sel key start l) < key start ∧
        ∀ i ∈ before, sel i → key (leastFrom sel key start l) < key i := by
  induction l generalizing start with
  | nil => exact Or.inl rfl
  | cons head rest ih =>
      rw [leastFrom_cons]
      by_cases himp : sel head ∧ key head < key start
      · have hhead : improve sel key start head = head := if_pos himp
        rw [hhead]
        rcases ih head with heq | ⟨before, after, hl, hsel, hkey, hbefore⟩
        · refine Or.inr ⟨[], rest, by rw [heq]; rfl, by rw [heq]; exact himp.1,
            by rw [heq]; exact himp.2, by simp⟩
        · refine Or.inr ⟨head :: before, after, by rw [List.cons_append, ← hl], hsel,
            hkey.trans himp.2, ?_⟩
          intro i hi hi'
          rcases List.mem_cons.mp hi with rfl | hi
          · exact hkey
          · exact hbefore i hi hi'
      · have hhead : improve sel key start head = start := if_neg himp
        rw [hhead]
        rcases ih start with heq | ⟨before, after, hl, hsel, hkey, hbefore⟩
        · exact Or.inl heq
        · refine Or.inr ⟨head :: before, after, by rw [List.cons_append, ← hl], hsel, hkey, ?_⟩
          intro i hi hi'
          rcases List.mem_cons.mp hi with rfl | hi
          · exact hkey.trans_le (not_lt.mp fun hlt => himp ⟨hi', hlt⟩)
          · exact hbefore i hi hi'

variable (sel key) in
theorem leastFrom_sel {start : ι} (h : sel start) (l : List ι) :
    sel (leastFrom sel key start l) := by
  rcases leastFrom_eq_or sel key start l with heq | ⟨_, _, _, hsel, _⟩
  · rw [heq]
    exact h
  · exact hsel

/-- A start of least key is kept. -/
theorem leastFrom_eq_start {start : ι} {l : List ι}
    (h : ∀ i ∈ l, sel i → key start ≤ key i) : leastFrom sel key start l = start := by
  rcases leastFrom_eq_or sel key start l with
    heq | ⟨before, after, hl, hsel, hkey, _⟩
  · exact heq
  · have hmem : leastFrom sel key start l ∈ l :=
      (congrArg (leastFrom sel key start l ∈ ·) hl).mpr (by simp)
    exact absurd (h _ hmem hsel) (not_le_of_gt hkey)

section Sorted

variable [LinearOrder ι]

omit [LinearOrder κ] in
/-- On an increasing list `find?` returns the least index that meets the test. -/
theorem find?_eq_some_iff {l : List ι} (hsorted : l.Pairwise (· < ·)) {m : ι} :
    l.find? (fun i => decide (sel i)) = some m ↔
      m ∈ l ∧ sel m ∧ ∀ i ∈ l, sel i → m ≤ i := by
  induction l with
  | nil => simp
  | cons head rest ih =>
      obtain ⟨hhead, hrest⟩ := List.pairwise_cons.mp hsorted
      by_cases hsel : sel head
      · simp only [List.find?_cons, hsel, decide_true, Option.some.injEq, List.mem_cons,
          forall_eq_or_imp]
        constructor
        · rintro rfl
          exact ⟨Or.inl rfl, hsel, fun _ => le_rfl, fun i hi _ => (hhead i hi).le⟩
        · rintro ⟨hm | hm, _, hle, _⟩
          · exact hm.symm
          · exact absurd (hle trivial) (not_le_of_gt (hhead m hm))
      · simp only [List.find?_cons, hsel, decide_false, ih hrest, List.mem_cons,
          forall_eq_or_imp, false_imp_iff, true_and]
        constructor
        · rintro ⟨hm, hsel', hle⟩
          exact ⟨Or.inr hm, hsel', hle⟩
        · rintro ⟨rfl | hm, hsel', hle⟩
          · exact absurd hsel' hsel
          · exact ⟨hm, hsel', hle⟩

/-- On an increasing list, a scan that leaves its start ends at the least index
among those of least key. -/
theorem leastFrom_first {start : ι} {l : List ι} (hsorted : l.Pairwise (· < ·))
    (hne : leastFrom sel key start l ≠ start) {i : ι} (hi : i ∈ l) (hsel : sel i)
    (hlt : i < leastFrom sel key start l) : key (leastFrom sel key start l) < key i := by
  rcases leastFrom_eq_or sel key start l with
    heq | ⟨before, after, hl, _, _, hbefore⟩
  · exact absurd heq hne
  · rw [hl] at hi hsorted
    rcases List.mem_append.mp hi with hi | hi
    · exact hbefore i hi hsel
    · obtain ⟨-, hafter, -⟩ := List.pairwise_append.mp hsorted
      rcases List.mem_cons.mp hi with heq | hi
      · exact absurd heq hlt.ne
      · exact absurd ((List.pairwise_cons.mp hafter).1 i hi) (not_lt_of_gt hlt)

/-- The order in which `least` prefers indices: the key first, then the index. -/
def rank (key : ι → κ) (i : ι) : κ ×ₗ ι :=
  toLex (key i, i)

omit [DecidablePred sel] in
theorem rank_le_iff {i j : ι} :
    rank key i ≤ rank key j ↔ key i < key j ∨ key i = key j ∧ i ≤ j := by
  simp [rank, Prod.Lex.toLex_le_toLex]

theorem rank_lt_iff {i j : ι} :
    rank key i < rank key j ↔ key i < key j ∨ key i = key j ∧ i < j := by
  simp [rank, Prod.Lex.toLex_lt_toLex]

omit [LinearOrder κ] [LinearOrder ι] in
theorem rank_injective : Function.Injective (rank key) := by
  intro i j h
  exact (Prod.ext_iff.mp (toLex.injective h)).2

variable (sel key) in
/-- What a scan that already holds `best` keeps: the least rank of `best` and
the selected indices, all of which come after `best`. -/
theorem foldl_keepLeast_some {best : ι} {l : List ι} (hsorted : l.Pairwise (· < ·))
    (hbest : ∀ i ∈ l, best < i) :
    ∃ m, l.foldl (keepLeast sel key) (some best) = some m ∧ (m = best ∨ m ∈ l ∧ sel m) ∧
      rank key m ≤ rank key best ∧ ∀ i ∈ l, sel i → rank key m ≤ rank key i := by
  induction l generalizing best with
  | nil => exact ⟨best, rfl, Or.inl rfl, le_rfl, by simp⟩
  | cons head rest ih =>
      obtain ⟨hhead, hrest⟩ := List.pairwise_cons.mp hsorted
      have hbesthead : best < head := hbest head (by simp)
      -- the induction is for every `best`, because the scan goes on with the better one
      by_cases himp : sel head ∧ key head < key best
      · have hkeep : keepLeast sel key (some best) head = some head := by
          simp [keepLeast, himp.1, himp.2]
        obtain ⟨m, hm, hmem, hle, hall⟩ := ih hrest hhead
        refine ⟨m, by rw [List.foldl_cons, hkeep, hm], ?_, ?_, ?_⟩
        · rcases hmem with rfl | ⟨hmem, hsel⟩
          · exact Or.inr ⟨by simp, himp.1⟩
          · exact Or.inr ⟨List.mem_cons_of_mem _ hmem, hsel⟩
        · exact hle.trans (rank_le_iff.mpr (Or.inl himp.2))
        · intro i hi hsel
          rcases List.mem_cons.mp hi with rfl | hi
          · exact hle
          · exact hall i hi hsel
      · have hkeep : keepLeast sel key (some best) head = some best := by
          by_cases hsel : sel head
          · have : ¬ key head < key best := fun hlt => himp ⟨hsel, hlt⟩
            simp [keepLeast, hsel, this]
          · simp [keepLeast, hsel]
        obtain ⟨m, hm, hmem, hle, hall⟩ :=
          ih hrest fun i hi => hbest i (List.mem_cons_of_mem _ hi)
        refine ⟨m, by rw [List.foldl_cons, hkeep, hm], ?_, hle, ?_⟩
        · exact hmem.imp_right fun h => ⟨List.mem_cons_of_mem _ h.1, h.2⟩
        · intro i hi hsel
          rcases List.mem_cons.mp hi with rfl | hi
          · refine hle.trans (rank_le_iff.mpr ?_)
            have hkey : key best ≤ key i := not_lt.mp fun hlt => himp ⟨hsel, hlt⟩
            exact hkey.lt_or_eq.imp_right fun heq => ⟨heq, hbesthead.le⟩
          · exact hall i hi hsel

variable (sel key) in
/-- A scan of an increasing list that finds nothing met no selected index; one
that finds `m` met it, and `m` has the least rank of all selected indices. -/
theorem least_spec {l : List ι} (hsorted : l.Pairwise (· < ·)) :
    (least sel key l = none ∧ ∀ i ∈ l, ¬ sel i) ∨
      ∃ m, least sel key l = some m ∧ m ∈ l ∧ sel m ∧
        ∀ i ∈ l, sel i → rank key m ≤ rank key i := by
  induction l with
  | nil => exact Or.inl ⟨rfl, by simp⟩
  | cons head rest ih =>
      obtain ⟨hhead, hrest⟩ := List.pairwise_cons.mp hsorted
      by_cases hsel : sel head
      · obtain ⟨m, hm, hmem, hle, hall⟩ := foldl_keepLeast_some sel key hrest hhead
        refine Or.inr ⟨m, ?_, ?_, ?_, ?_⟩
        · rw [← hm]
          simp [least, keepLeast, hsel]
        · rcases hmem with rfl | hmem
          · simp
          · exact List.mem_cons_of_mem _ hmem.1
        · rcases hmem with rfl | hmem
          · exact hsel
          · exact hmem.2
        · intro i hi hi'
          rcases List.mem_cons.mp hi with rfl | hi
          · exact hle
          · exact hall i hi hi'
      · have hskip : least sel key (head :: rest) = least sel key rest := by
          simp [least, keepLeast, hsel]
        rw [hskip]
        rcases ih hrest with ⟨hnone, hall⟩ | ⟨m, hm, hmem, hsel', hall⟩
        · refine Or.inl ⟨hnone, fun i hi => ?_⟩
          rcases List.mem_cons.mp hi with rfl | hi
          · exact hsel
          · exact hall i hi
        · refine Or.inr ⟨m, hm, List.mem_cons_of_mem _ hmem, hsel', fun i hi hi' => ?_⟩
          rcases List.mem_cons.mp hi with rfl | hi
          · exact absurd hi' hsel
          · exact hall i hi hi'

theorem least_eq_none_iff {l : List ι} (hsorted : l.Pairwise (· < ·)) :
    least sel key l = none ↔ ∀ i ∈ l, ¬ sel i := by
  rcases least_spec sel key hsorted with ⟨hnone, hall⟩ | ⟨m, hm, hmem, hsel, _⟩
  · exact iff_of_true hnone hall
  · rw [hm]
    simp only [reduceCtorEq, false_iff, not_forall, not_not]
    exact ⟨m, hmem, hsel⟩

/-- `least` finds the selected index of least rank. -/
theorem least_eq_some_iff {l : List ι} (hsorted : l.Pairwise (· < ·)) {m : ι} :
    least sel key l = some m ↔
      m ∈ l ∧ sel m ∧ ∀ i ∈ l, sel i → rank key m ≤ rank key i := by
  constructor
  · intro h
    rcases least_spec sel key hsorted with ⟨hnone, _⟩ | ⟨found, hfound, hspec⟩
    · simp [hnone] at h
    · obtain rfl : found = m := by simpa [hfound] using h
      exact hspec
  · rintro ⟨hmem, hsel, hall⟩
    rcases least_spec sel key hsorted with
      ⟨_, hnot⟩ | ⟨found, hfound, hmem', hsel', hall'⟩
    · exact absurd hsel (hnot m hmem)
    · rw [hfound, rank_injective (le_antisymm (hall' m hmem hsel) (hall found hmem' hsel'))]

end Sorted

/-! ## The whole table -/

/-- The order in which a loop over an array of `n` elements meets them. -/
theorem finRange_sorted (n : ℕ) : (List.finRange n).Pairwise (· < ·) :=
  List.pairwise_lt_finRange n

end Scan
