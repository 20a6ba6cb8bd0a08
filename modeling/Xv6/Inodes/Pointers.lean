import Xv6.Inodes.Books

/-!
# Pointers to the inode cache

The rules for the steps in which a pointer is got (`Inv.gain`, `Inv.fill`), moves (`Inv.move`) or
is dropped (`Inv.drop`), and for an inode that is allocated (`Inv.alloc`).
-/

namespace Xv6.Inodes

open Files References Transition

variable {P : Type} [DecidableEq P] {s t : Icache P} {p q : P} {i j : Ptr} {pc : Pc} {e : Entry P}
variable {k : ℕ × ℕ}

@[simp] theorem setVars_self {l : Multiset Ptr} : (s.setVars p l).vars p = l :=
  Function.update_self ..

theorem setVars_of_ne {l : Multiset Ptr} (hne : q ≠ p) : (s.setVars p l).vars q = s.vars q :=
  Function.update_of_ne hne ..

/-- There is a pointer more to entry `i`. -/
def got (s : Icache P) (p : P) (i : Ptr) (e : Entry P) : Icache P :=
  (s.setEntry i e).setVars p (i ::ₘ s.vars p)

theorem refers_got {l : Pc → Option Ptr} (h : s.Refers l j) : (got s p i e).Refers l j := by
  rcases h with h | ⟨q, h | h⟩
  · exact Or.inl h
  · refine Or.inr ⟨q, Or.inl ?_⟩
    by_cases hq : q = p
    · subst hq
      rw [got, setVars_self]
      exact Multiset.mem_cons_of_mem h
    · rw [got, setVars_of_ne hq]
      exact h
  · exact Or.inr ⟨q, Or.inr h⟩

theorem of_refers_got {l : Pc → Option Ptr} (h : (got s p i e).Refers l j) :
    j = i ∨ s.Refers l j := by
  rcases h with h | ⟨q, h | h⟩
  · exact Or.inr (Or.inl h)
  · by_cases hq : q = p
    · subst hq
      rw [got, setVars_self] at h
      rcases Multiset.mem_cons.mp h with h | h
      · exact Or.inl h
      · exact Or.inr (Or.inr ⟨q, Or.inl h⟩)
    · rw [got, setVars_of_ne hq] at h
      exact Or.inr (Or.inr ⟨q, Or.inl h⟩)
  · exact Or.inr (Or.inr ⟨q, Or.inr h⟩)

theorem got_entry_self : (got s p i e).entry i = e := setEntry_self

theorem got_entry_of_ne (hne : j ≠ i) : (got s p i e).entry j = s.entry j := setEntry_of_ne hne

theorem key_got {n : ℕ} : ((got s p i { s.entry i with ref := n }).entry j).key =
    (s.entry j).key := by
  by_cases hj : j = i
  · subst hj
    rw [got_entry_self]
    rfl
  · rw [got_entry_of_ne hj]

theorem Inv.counted_got [Fintype P] (h : Inv s) (href : e.ref = (s.entry i).ref + 1) :
    Counted (fun j => ((got s p i e).entry j).ref) (got s p i e).holds := by
  refine h.counted.gain (e := some p) (x := i) (fun o ho => ?_) ?_ fun j => ?_
  · cases o with
    | none => rfl
    | some q =>
        have hq : q ≠ p := fun hq => ho (congrArg some hq)
        show (got s p i e).vars q + _ = s.vars q + _
        rw [got, setVars_of_ne hq]
        rfl
  · show (got s p i e).vars p + _ = i ::ₘ (s.vars p + _)
    rw [got, setVars_self, Multiset.cons_add]
    rfl
  · by_cases hj : j = i
    · subst hj
      rw [got_entry_self, if_pos rfl, href]
    · rw [got_entry_of_ne hj, if_neg hj]

section Got

variable [Fintype P] (h : Inv s)
include h

/-- An entry that is in use. -/
theorem Inv.gain (hpos : 0 < (s.entry i).ref) :
    Inv (got s p i { s.entry i with ref := (s.entry i).ref + 1 }) := by
  have hsame : ∀ j, ((got s p i { s.entry i with ref := (s.entry i).ref + 1 }).entry j).key =
      (s.entry j).key ∧
      ((got s p i { s.entry i with ref := (s.entry i).ref + 1 }).entry j).lock =
        (s.entry j).lock ∧
      ((got s p i { s.entry i with ref := (s.entry i).ref + 1 }).entry j).valid =
        (s.entry j).valid ∧
      ((got s p i { s.entry i with ref := (s.entry i).ref + 1 }).entry j).toDinode =
        (s.entry j).toDinode ∧
      (0 < ((got s p i { s.entry i with ref := (s.entry i).ref + 1 }).entry j).ref →
        0 < (s.entry j).ref) := by
    intro j
    by_cases hj : j = i
    · subst hj
      rw [got_entry_self]
      exact ⟨rfl, rfl, rfl, rfl, fun _ => hpos⟩
    · rw [got_entry_of_ne hj]
      exact ⟨rfl, rfl, rfl, rfl, id⟩
  constructor
  case counted => exact h.counted_got rfl
  case unique =>
    intro j j' hj hj' hkey
    rw [(hsame j).1, (hsame j').1] at hkey
    exact h.unique j j' ((hsame j).2.2.2.2 hj) ((hsame j').2.2.2.2 hj') hkey
  case owner =>
    intro q j hj
    rw [(hsame j).2.1]
    exact h.owner q j hj
  case kept =>
    intro j hlock
    rw [(hsame j).2.1] at hlock
    exact refers_got (h.kept j hlock)
  case synced =>
    intro j hj hvalid hdirty
    rw [(hsame j).2.2.1] at hvalid
    rw [(hsame j).2.2.2.1, (hsame j).1]
    exact h.synced j ((hsame j).2.2.2.2 hj) hvalid hdirty
  case valid =>
    intro q j hlock
    rw [(hsame j).2.1] at hlock
    rw [(hsame j).2.2.1]
    exact h.valid q j hlock
  case typed =>
    intro q j hq
    rw [(hsame j).2.2.2.1]
    exact h.typed q j hq

/-- An empty entry is filled. -/
theorem Inv.fill (hzero : (s.entry i).ref = 0) (hnew : ∀ j, 0 < (s.entry j).ref →
      (s.entry j).key ≠ k) :
    Inv (got s p i
      { s.entry i with dev := k.1, inum := k.2, ref := 1, valid := false }) := by
  have hlock : (s.entry i).lock = none := by
    by_contra hlock
    have hpos := h.pos_of_lock hlock
    omega
  have hnot : ∀ q, (s.pc q).owns ≠ some i := fun q howns => by
    have hpos := h.pos_of_owns howns
    omega
  constructor
  case counted => exact h.counted_got (by rw [hzero])
  case unique =>
    intro j j' hj hj' hkey
    by_cases hji : j = i
    · by_cases hji' : j' = i
      · rw [hji, hji']
      · subst hji
        rw [got_entry_self, got_entry_of_ne hji'] at hkey
        rw [got_entry_of_ne hji'] at hj'
        exact absurd hkey.symm (hnew j' hj')
    · by_cases hji' : j' = i
      · subst hji'
        rw [got_entry_self, got_entry_of_ne hji] at hkey
        rw [got_entry_of_ne hji] at hj
        exact absurd hkey (hnew j hj)
      · rw [got_entry_of_ne hji] at hj hkey
        rw [got_entry_of_ne hji'] at hj' hkey
        exact h.unique j j' hj hj' hkey
  case owner =>
    intro q j hj
    have hji : j ≠ i := by
      rintro rfl
      exact hnot q hj
    rw [got_entry_of_ne hji]
    exact h.owner q j hj
  case kept =>
    intro j hj
    by_cases hji : j = i
    · subst hji
      rw [got_entry_self] at hj
      exact absurd hlock hj
    · rw [got_entry_of_ne hji] at hj
      exact refers_got (h.kept j hj)
  case synced =>
    intro j hj hvalid hdirty
    by_cases hji : j = i
    · subst hji
      rw [got_entry_self] at hvalid
      cases hvalid
    · rw [got_entry_of_ne hji] at hj hvalid ⊢
      exact h.synced j hj hvalid hdirty
  case valid =>
    intro q j hj
    by_cases hji : j = i
    · subst hji
      rw [got_entry_self] at hj
      exact absurd (hlock.symm.trans hj) (Option.some_ne_none q).symm
    · rw [got_entry_of_ne hji] at hj ⊢
      exact h.valid q j hj
  case typed =>
    intro q j hq
    have hji : j ≠ i := by
      rintro rfl
      exact hnot q (by rcases hq with hq | hq <;> exact hq ▸ rfl)
    rw [got_entry_of_ne hji]
    exact h.typed q j hq

end Got

/-- What has been looked up is there, and nobody frees it. -/
theorem Linked.got (h : Linked s)
    (hborn : (s.disk e.key).type ≠ 0 ∧ ∀ q, (s.pc q).fresh ≠ some e.key)
    (hfrees : ∀ q, (s.pc q).frees ≠ some i) : Linked (got s p i e) where
  born j hj := by
    by_cases hji : j = i
    · subst hji
      rw [got_entry_self]
      exact hborn
    · rw [got_entry_of_ne hji]
      exact h.born j ((of_refers_got hj).resolve_left hji)
  fresh := h.fresh
  single := h.single
  frees q j hj := by
    have hji : j ≠ i := by
      rintro rfl
      exact hfrees q hj
    rw [got_entry_of_ne hji]
    exact h.frees q j hj

/-- Pointers have moved, but nothing else. -/
structure Moves (s t : Icache P) : Prop where
  entry : t.entry = s.entry
  disk : t.disk = s.disk
  refers : ∀ l : Pc → Option Ptr, (∀ i, l (.putting i) = some i) → l .idle = none →
    ∀ i, t.Refers l i ↔ s.Refers l i
  pc : ∀ q, t.pc q = s.pc q ∨ s.pc q = .idle ∧ ∃ i, t.pc q = .putting i

omit [DecidableEq P] in
theorem Moves.view {α : Type} (hmoves : Moves s t) (l : Pc → Option α)
    (hput : ∀ i, l (.putting i) = none) (hidle : l .idle = none) (q : P) :
    l (t.pc q) = l (s.pc q) := by
  rcases hmoves.pc q with hsame | ⟨hbefore, i, hafter⟩
  · rw [hsame]
  · rw [hbefore, hafter, hput, hidle]

omit [DecidableEq P] in
theorem Inv.move [Fintype P] (h : Inv s) (hmoves : Moves s t)
    (hcounted : Counted (fun i => (s.entry i).ref) t.holds) : Inv t := by
  constructor
  case counted => rwa [hmoves.entry]
  case unique =>
    rw [hmoves.entry]
    exact h.unique
  case owner =>
    intro q j hj
    rw [hmoves.view Pc.owns (fun _ => rfl) rfl] at hj
    rw [hmoves.entry]
    exact h.owner q j hj
  case kept =>
    intro j hj
    rw [hmoves.entry] at hj
    exact (hmoves.refers Pc.grip (fun _ => rfl) rfl j).mpr (h.kept j hj)
  case synced =>
    intro j hj hvalid hdirty
    rw [hmoves.entry] at hj hvalid ⊢
    rw [hmoves.disk]
    refine h.synced j hj hvalid fun q hq => hdirty q ?_
    rwa [hmoves.view Pc.dirty (fun _ => rfl) rfl]
  case valid =>
    intro q j hj hlocking htesting
    rw [hmoves.entry] at hj ⊢
    rcases hmoves.pc q with hsame | ⟨hbefore, -⟩
    · rw [hsame] at hlocking htesting
      exact h.valid q j hj hlocking htesting
    · refine h.valid q j hj ?_ ?_ <;> rw [hbefore] <;> exact Pc.noConfusion
  case typed =>
    intro q j hq
    rw [hmoves.entry]
    rcases hmoves.pc q with hsame | ⟨-, i, hafter⟩
    · rw [hsame] at hq
      exact h.typed q j hq
    · rw [hafter] at hq
      rcases hq with hq | hq <;> cases hq

omit [DecidableEq P] in
theorem Linked.move (h : Linked s) (hmoves : Moves s t) : Linked t := by
  have hfresh := hmoves.view Pc.fresh (fun _ => rfl) rfl
  have hfrees := hmoves.view Pc.frees (fun _ => rfl) rfl
  constructor
  case born =>
    intro j hj
    rw [hmoves.entry, hmoves.disk]
    have hbefore := h.born j ((hmoves.refers Pc.grasp (fun _ => rfl) rfl j).mp hj)
    exact ⟨hbefore.1, fun q => by rw [hfresh]; exact hbefore.2 q⟩
  case fresh =>
    intro q k hq
    rw [hfresh] at hq
    rw [hmoves.disk]
    exact h.fresh q k hq
  case single =>
    intro q q' k hq hq'
    rw [hfresh] at hq hq'
    exact h.single q q' k hq hq'
  case frees =>
    intro q j hq
    rw [hfrees] at hq
    rw [hmoves.entry, hmoves.disk]
    exact h.frees q j hq

/-! ## A pointer is dropped -/

/-- The state after `ip->ref--`. -/
def dropped (s : Icache P) (p : P) (i : Ptr) : Icache P :=
  (s.setEntry i { s.entry i with ref := (s.entry i).ref - 1 }).goto p .idle

section Drop

variable (hplace : s.pc p = .dropping i)
include hplace

theorem dropped_view {α : Type} (l : Pc → Option α) (hdrop : ∀ i, l (.dropping i) = none)
    (hidle : l .idle = none) (q : P) : l ((dropped s p i).pc q) = l (s.pc q) := by
  by_cases hqp : q = p
  · subst hqp
    rw [dropped, goto_pc_self, hplace, hdrop, hidle]
  · rw [dropped, goto_pc_of_ne hqp]
    rfl

omit hplace in
theorem dropped_entry_self : (dropped s p i).entry i =
    { s.entry i with ref := (s.entry i).ref - 1 } := setEntry_self

omit hplace in
theorem dropped_entry_of_ne (hne : j ≠ i) : (dropped s p i).entry j = s.entry j :=
  setEntry_of_ne hne

omit hplace in
/-- Only the count changes. -/
theorem dropped_entry (s : Icache P) (p : P) (i j : Ptr) : ∃ n, n ≤ (s.entry j).ref ∧
    (dropped s p i).entry j = { s.entry j with ref := n } := by
  by_cases hj : j = i
  · subst hj
    exact ⟨_, Nat.sub_le _ 1, dropped_entry_self⟩
  · exact ⟨_, le_rfl, dropped_entry_of_ne hj⟩

theorem refers_dropped {l : Pc → Option Ptr} (hdrop : ∀ i, l (.dropping i) = none)
    (hidle : l .idle = none) : (dropped s p i).Refers l j ↔ s.Refers l j := by
  refine or_congr Iff.rfl (exists_congr fun q => or_congr Iff.rfl ?_)
  rw [dropped_view hplace l hdrop hidle]

theorem Inv.drop [Fintype P] (h : Inv s) : Inv (dropped s p i) := by
  constructor
  case counted =>
    refine h.counted.drop (e := some p) (x := i) (fun o ho => ?_) ?_ fun j => ?_
    · cases o with
      | none => rfl
      | some q =>
          have hq : q ≠ p := fun hq => ho (congrArg some hq)
          show s.vars q + place ((dropped s p i).pc q).hand = s.vars q + place (s.pc q).hand
          rw [dropped, goto_pc_of_ne hq]
          rfl
    · show s.vars p + place (s.pc p).hand =
        i ::ₘ (s.vars p + place ((dropped s p i).pc p).hand)
      rw [dropped, goto_pc_self, hplace]
      show s.vars p + {i} = i ::ₘ (s.vars p + 0)
      rw [add_zero, add_comm, Multiset.singleton_add]
    · by_cases hj : j = i
      · subst hj
        rw [dropped_entry_self, if_pos rfl]
      · rw [dropped_entry_of_ne hj, if_neg hj]
  case unique =>
    intro j j' hj hj' hkey
    obtain ⟨n, hn, hentry⟩ := dropped_entry s p i j
    obtain ⟨n', hn', hentry'⟩ := dropped_entry s p i j'
    rw [hentry] at hj hkey
    rw [hentry'] at hj' hkey
    exact h.unique j j' (hj.trans_le hn) (hj'.trans_le hn') hkey
  case owner =>
    intro q j hj
    rw [dropped_view hplace Pc.owns (fun _ => rfl) rfl] at hj
    obtain ⟨n, -, hentry⟩ := dropped_entry s p i j
    rw [hentry]
    exact h.owner q j hj
  case kept =>
    intro j hj
    obtain ⟨n, -, hentry⟩ := dropped_entry s p i j
    rw [hentry] at hj
    rw [refers_dropped hplace (fun _ => rfl) rfl]
    exact h.kept j hj
  case synced =>
    intro j hj hvalid hdirty
    obtain ⟨n, hn, hentry⟩ := dropped_entry s p i j
    rw [hentry] at hj hvalid ⊢
    refine h.synced j (hj.trans_le hn) hvalid fun q hq => hdirty q ?_
    rwa [dropped_view hplace Pc.dirty (fun _ => rfl) rfl]
  case valid =>
    intro q j hj hlocking htesting
    obtain ⟨n, -, hentry⟩ := dropped_entry s p i j
    rw [hentry] at hj ⊢
    by_cases hqp : q = p
    · subst hqp
      refine h.valid q j hj ?_ ?_ <;> rw [hplace] <;> exact Pc.noConfusion
    · rw [dropped, goto_pc_of_ne hqp] at hlocking htesting
      exact h.valid q j hj hlocking htesting
  case typed =>
    intro q j hq
    obtain ⟨n, -, hentry⟩ := dropped_entry s p i j
    rw [hentry]
    by_cases hqp : q = p
    · subst hqp
      rw [dropped, goto_pc_self] at hq
      rcases hq with hq | hq <;> cases hq
    · rw [dropped, goto_pc_of_ne hqp] at hq
      exact h.typed q j hq

theorem Linked.drop [Fintype P] (h : Linked s) (hinv : Inv s) : Linked (dropped s p i) := by
  have hfresh := dropped_view hplace Pc.fresh (fun _ => rfl) rfl
  have hfrees := dropped_view hplace Pc.frees (fun _ => rfl) rfl
  constructor
  case born =>
    intro j hj
    obtain ⟨n, -, hentry⟩ := dropped_entry s p i j
    rw [hentry]
    rw [refers_dropped hplace (fun _ => rfl) rfl] at hj
    exact ⟨(h.born j hj).1, fun q => by rw [hfresh]; exact (h.born j hj).2 q⟩
  case fresh =>
    intro q k hq
    rw [hfresh] at hq
    exact h.fresh q k hq
  case single =>
    intro q q' k hq hq'
    rw [hfresh] at hq hq'
    exact h.single q q' k hq hq'
  case frees =>
    intro q j hq
    rw [hfrees] at hq
    have hji : j ≠ i := by
      rintro rfl
      -- there would be two references
      have hsole := hinv.sole (Pc.hand_of_grip (Pc.grip_of_grasp (Pc.grasp_of_frees hq)))
        (h.frees q j hq).1
      by_cases hqp : p = q
      · subst hqp
        rw [hplace] at hq
        cases hq
      · exact hsole.2.2 p hqp (by rw [hplace]; rfl)
    rw [dropped_entry_of_ne hji]
    exact h.frees q j hq

end Drop

/-! ## An inode is allocated -/

section Alloc

variable {dev inum : ℕ} {type : InodeType} {d : Dinode} (hplace : s.pc p = .searching dev inum type)
  (htype : (s.disk (dev, inum)).type = 0)
include hplace

/-- The state after the inode has been marked as allocated. -/
def marked (s : Icache P) (p : P) (dev inum : ℕ) (d : Dinode) : Icache P :=
  (s.setDinode (dev, inum) d).goto p (.allocated dev inum)

theorem marked_view {α : Type} (l : Pc → Option α)
    (hsearching : ∀ dev inum type, l (.searching dev inum type) = none)
    (hallocated : ∀ dev inum, l (.allocated dev inum) = none) (q : P) :
    l ((marked s p dev inum d).pc q) = l (s.pc q) := by
  by_cases hqp : q = p
  · subst hqp
    rw [marked, goto_pc_self, hplace, hsearching, hallocated]
  · rw [marked, goto_pc_of_ne hqp]
    rfl

theorem marked_fresh (hq : ((marked s p dev inum d).pc q).fresh = some k) :
    q = p ∧ k = (dev, inum) ∨ q ≠ p ∧ (s.pc q).fresh = some k := by
  by_cases hqp : q = p
  · subst hqp
    rw [marked, goto_pc_self] at hq
    exact Or.inl ⟨rfl, (Option.some.inj hq).symm⟩
  · rw [marked, goto_pc_of_ne hqp] at hq
    exact Or.inr ⟨hqp, hq⟩

theorem refers_marked {l : Pc → Option Ptr}
    (hsearching : ∀ dev inum type, l (.searching dev inum type) = none)
    (hallocated : ∀ dev inum, l (.allocated dev inum) = none) :
    (marked s p dev inum d).Refers l j ↔ s.Refers l j := by
  refine or_congr Iff.rfl (exists_congr fun q => or_congr Iff.rfl ?_)
  rw [marked_view hplace l hsearching hallocated]

include htype

theorem Inv.alloc [Fintype P] (h : Inv s) : Inv (marked s p dev inum d) := by
  constructor
  case counted =>
    refine h.counted.congr (fun j => rfl) fun o => ?_
    cases o with
    | none => rfl
    | some q =>
        show s.vars q + place ((marked s p dev inum d).pc q).hand = s.vars q + place (s.pc q).hand
        rw [marked_view hplace Pc.hand (fun _ _ _ => rfl) (fun _ _ => rfl)]
  case unique => exact h.unique
  case owner =>
    intro q j hj
    rw [marked_view hplace Pc.owns (fun _ _ _ => rfl) (fun _ _ => rfl)] at hj
    exact h.owner q j hj
  case kept =>
    intro j hj
    rw [refers_marked hplace (fun _ _ _ => rfl) (fun _ _ => rfl)]
    exact h.kept j hj
  case synced =>
    intro j hj hvalid hdirty
    have hsync : (s.entry j).toDinode = s.disk (s.entry j).key ∧ (s.entry j).type ≠ 0 := by
      refine h.synced j hj hvalid fun q hq => hdirty q ?_
      rwa [marked_view hplace Pc.dirty (fun _ _ _ => rfl) (fun _ _ => rfl)]
    have hkey : (s.entry j).key ≠ (dev, inum) := by
      intro hkey
      rw [← hkey, ← hsync.1] at htype
      exact hsync.2 htype
    have hsame : (marked s p dev inum d).disk (s.entry j).key = s.disk (s.entry j).key :=
      setDinode_disk_of_ne hkey
    show (s.entry j).toDinode = (marked s p dev inum d).disk (s.entry j).key ∧ _
    rw [hsame]
    exact hsync
  case valid =>
    intro q j hj hlocking htesting
    by_cases hqp : q = p
    · subst hqp
      refine h.valid q j hj ?_ ?_ <;> rw [hplace] <;> exact Pc.noConfusion
    · rw [marked, goto_pc_of_ne hqp] at hlocking htesting
      exact h.valid q j hj hlocking htesting
  case typed =>
    intro q j hq
    by_cases hqp : q = p
    · subst hqp
      rw [marked, goto_pc_self] at hq
      rcases hq with hq | hq <;> cases hq
    · rw [marked, goto_pc_of_ne hqp] at hq
      exact h.typed q j hq

/-- Nobody has a pointer to a free inode. -/
theorem Linked.alloc (h : Linked s) (hd : d.type ≠ 0 ∧ d.nlink = 0) :
    Linked (marked s p dev inum d) := by
  have hfree : ∀ j, s.Refers Pc.grasp j → (s.entry j).key ≠ (dev, inum) := by
    intro j hj hkey
    rw [← hkey] at htype
    exact (h.born j hj).1 htype
  have hother : ∀ q k, (s.pc q).fresh = some k → k ≠ (dev, inum) := by
    rintro q k hq rfl
    exact (h.fresh q _ hq).1 htype
  have hsame : ∀ k, k ≠ (dev, inum) → (marked s p dev inum d).disk k = s.disk k :=
    fun k hk => setDinode_disk_of_ne hk
  constructor
  case born =>
    intro j hj
    rw [refers_marked hplace (fun _ _ _ => rfl) (fun _ _ => rfl)] at hj
    have hkey := hfree j hj
    refine ⟨?_, fun q hq => ?_⟩
    · show ((marked s p dev inum d).disk (s.entry j).key).type ≠ 0
      rw [hsame _ hkey]
      exact (h.born j hj).1
    · rcases marked_fresh hplace hq with ⟨-, hk⟩ | ⟨-, hq⟩
      · exact hkey hk
      · exact (h.born j hj).2 q hq
  case fresh =>
    intro q k hq
    rcases marked_fresh hplace hq with ⟨-, rfl⟩ | ⟨-, hq⟩
    · rw [marked, Icache.goto, setDinode_disk_self]
      exact hd
    · rw [hsame k (hother q k hq)]
      exact h.fresh q k hq
  case single =>
    intro q q' k hq hq'
    rcases marked_fresh hplace hq with ⟨rfl, rfl⟩ | ⟨-, hq⟩
    · rcases marked_fresh hplace hq' with ⟨rfl, -⟩ | ⟨-, hq'⟩
      · rfl
      · exact absurd rfl (hother q' _ hq')
    · rcases marked_fresh hplace hq' with ⟨-, rfl⟩ | ⟨-, hq'⟩
      · exact absurd rfl (hother q _ hq)
      · exact h.single q q' k hq hq'
  case frees =>
    intro q j hq
    rw [marked_view hplace Pc.frees (fun _ _ _ => rfl) (fun _ _ => rfl)] at hq
    have hkey := hfree j (Or.inr ⟨q, Or.inr (Pc.grasp_of_frees hq)⟩)
    have hbefore := h.frees q j hq
    refine ⟨hbefore.1, hbefore.2.1, ?_⟩
    show ((marked s p dev inum d).disk (s.entry j).key).nlink = 0
    rw [hsame _ hkey]
    exact hbefore.2.2

end Alloc

end Xv6.Inodes
