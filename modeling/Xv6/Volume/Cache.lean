import Xv6.Volume.Truncate

/-!
# References to inodes

`iget` and `idup` take a reference, and `iput` gives it up.  A process that has one, `l.keep j`, may
use the entry of the cache: nobody else makes it the entry of another inode.
-/

namespace Xv6

open Files Interleaving References
open Inodes (Ptr)
open Ftable (FileId Fd)

namespace Volume

variable {P : Type} [Fintype P] [DecidableEq P] {s t : Volume P × Ghost P} {p q : P}
variable {i b dev inum : ℕ} {j k : Ptr} {sb : Superblock} {l : Local} {d d₀ : Dinode}
variable {f : Files.Slot → ℕ} {type : Int16}

/-! ## One reference more or less -/

/-- `ref` of one entry becomes `r`, and the process has the references `vars`. -/
def recount (s : Volume P × Ghost P) (p : P) (j : Ptr) (r : ℕ) (vars : Multiset Ptr) :
    Volume P × Ghost P :=
  (s.1.setEntry j fun e => { e with ref := r },
    { s.2 with vars := Function.update s.2.vars p vars })

section Recount

variable {r : ℕ} {vars : Multiset Ptr}

omit [Fintype P] in
theorem recount_entry (s : Volume P × Ghost P) (p : P) (j k : Ptr) (r : ℕ) (vars : Multiset Ptr) :
    (recount s p j r vars).1.entry k =
      { s.1.entry k with ref := if k = j then r else (s.1.entry k).ref } := by
  by_cases hk : k = j
  · subst hk
    rw [if_pos rfl]
    exact Function.update_self ..
  · rw [if_neg hk]
    exact Function.update_of_ne hk ..

omit [Fintype P] in
theorem recount_vars_of_ne (hne : q ≠ p) :
    (recount s p j r vars).2.vars q = s.2.vars q := Function.update_of_ne hne ..

omit [Fintype P] in
theorem holds_recount_of_ne {e : P ⊕ FileId} (hne : e ≠ .inl p) :
    holds (recount s p j r vars) e = holds s e := by
  cases e with
  | inl q => exact recount_vars_of_ne fun heq => hne (by rw [heq])
  | inr f => rfl

omit [Fintype P] in
theorem holds_recount_self : holds (recount s p j r vars) (.inl p) = vars :=
  Function.update_self ..

theorem Table.of_recount (hs : Inv sb s) (hused : s.1.used p = true)
    (hpos : 0 < r → 0 < (s.1.entry j).ref)
    (hmine : ∀ k, (s.1.entry k).lock = some p → Uses p k (recount s p j r vars))
    (hcounted : Counted (fun k => ((recount s p j r vars).1.entry k).ref)
      (holds (recount s p j r vars))) : Table p s (recount s p j r vars) where
  disk := rfl
  place := rfl
  hand := rfl
  entry k := ⟨_, recount_entry ..⟩
  pos k hk := by
    rw [recount_entry] at hk
    by_cases hkj : k = j
    · subst hkj
      exact hpos (by simpa using hk)
    · simpa [hkj] using hk
  same q hne _ := ⟨rfl, rfl, rfl, recount_vars_of_ne hne, rfl⟩
  born q hne hunused hidle := by
    refine ⟨hidle.hand, fun k hlock => ?_, fun hused' => ?_⟩
    · rw [recount_entry] at hlock
      exact hidle.lock k hlock
    · exact absurd (hused'.symm.trans hunused) (by simp)
  uses q hne k huses := by
    unfold Uses at huses ⊢
    rwa [recount_vars_of_ne hne]
  file _ _ f _ := SameFile.refl f s
  mine := hmine
  counted := hcounted
  files := hs.files
  closed := hs.closed
  fresh := hs.fresh
  unused q hunused := by
    have hne : q ≠ p := by
      rintro rfl
      exact absurd (hused.symm.trans hunused) (by simp)
    exact ⟨(recount_vars_of_ne hne).trans (hs.unused q hunused).1, (hs.unused q hunused).2⟩

theorem Has.of_recount (h : Has p l s) (ht : Table p s (recount s p j r vars)) :
    Has p { l with vars := vars } (recount s p j r vars) where
  core := ⟨h.core.used, h.core.cwd, h.core.ofile, Function.update_self .., h.core.fvars, h.core.ip,
    fun k => by
      rw [recount_entry]
      exact h.core.lock k⟩
  hand := h.hand
  sound k hk := ht.sound (h.sound k hk)

end Recount

omit [Fintype P] in
theorem Uses.cons {vars : Multiset Ptr} {r : ℕ} (h : Uses p k s)
    (hsub : k ∈ s.2.vars p → k ∈ vars) : Uses p k (recount s p j r vars) := by
  rcases h with hvar | hfile
  · refine Or.inl ?_
    show k ∈ Function.update s.2.vars p vars p
    rw [Function.update_self]
    exact hsub hvar
  · exact Or.inr hfile

/-- One takes a reference to an entry that is in use. -/
theorem Table.gain (hs : Inv sb s) (hused : s.1.used p = true) (hpos : 0 < (s.1.entry j).ref) :
    Table p s (recount s p j ((s.1.entry j).ref + 1) (j ::ₘ s.2.vars p)) := by
  refine Table.of_recount hs hused (fun _ => hpos) (fun k hlock => ?_) ?_
  · exact (hs.locked k p hlock).cons Multiset.mem_cons_of_mem
  · refine hs.counted.gain (fun e he => holds_recount_of_ne he) holds_recount_self fun k => ?_
    rw [recount_entry]

/-- One gives a reference up to an entry that one has not locked. -/
theorem Table.drop {vars : Multiset Ptr} (hs : Inv sb s) (hused : s.1.used p = true)
    (hvars : s.2.vars p = j ::ₘ vars)
    (hlock : (s.1.entry j).lock ≠ some p) :
    Table p s (recount s p j ((s.1.entry j).ref - 1) vars) := by
  refine Table.of_recount hs hused (fun _ => ?_) (fun k hk => ?_) ?_
  · exact hs.ref_pos (Or.inl (by rw [hvars]; exact Multiset.mem_cons_self j vars))
  · refine (hs.locked k p hk).cons fun hmem => ?_
    rw [hvars] at hmem
    refine (Multiset.mem_cons.mp hmem).resolve_left ?_
    rintro rfl
    exact hlock hk
  · refine hs.counted.drop (x := j) (fun e he => holds_recount_of_ne he) ?_ fun k => ?_
    · rw [holds_recount_self]
      exact hvars
    · rw [recount_entry]

theorem spec_idup (huses : l.Uses j) :
    Spec P sb p (Has p l) (idup j) fun _ => Has p (l.keep j) := by
  refine Logic.meets_atomic stable_has fun s hs h => ?_
  have hgain := Table.gain (p := p) hs h.core.used (hs.ref_pos (h.core.uses.mpr huses))
  have hhas := h.of_recount hgain
  rw [h.core.vars] at hhas hgain
  exact Logic.does_next (a := ⟨⟩) rfl (hgain.inv hs) hgain.frame hhas

/-! ## `iget` -/

omit [Fintype P] [DecidableEq P] in
theorem cached_some (h : s.1.cached dev inum = some j) : 0 < (s.1.entry j).ref := by
  have hfound := List.find?_some h
  simp only [decide_eq_true_eq] at hfound
  exact hfound.1

omit [Fintype P] [DecidableEq P] in
theorem cached_none (h : s.1.cached dev inum = none) (hpos : 0 < (s.1.entry k).ref)
    (hdev : (s.1.entry k).dev = dev) : (s.1.entry k).inum ≠ inum := by
  intro hinum
  have hfound := List.find?_eq_none.mp h k (List.mem_finRange k)
  simp [hpos, hdev, hinum] at hfound

omit [Fintype P] [DecidableEq P] in
theorem empty_some (h : s.1.empty = some j) : (s.1.entry j).ref = 0 := by
  simpa using List.find?_some h

/-- Entry `j`, which is not in use, becomes that of inode `inum`. -/
def fills (s : Volume P × Ghost P) (p : P) (j : Ptr) (inum : ℕ) : Volume P × Ghost P :=
  (s.1.setEntry j fun e => { e with dev := ROOTDEV, inum := inum, ref := 1, valid := false },
    { s.2 with vars := Function.update s.2.vars p (j ::ₘ s.2.vars p) })

section Fills

omit [Fintype P] in
theorem fills_self (s : Volume P × Ghost P) (p : P) (j : Ptr) (inum : ℕ) :
    (fills s p j inum).1.entry j =
      { s.1.entry j with dev := ROOTDEV, inum := inum, ref := 1, valid := false } :=
  Function.update_self ..

omit [Fintype P] in
theorem fills_of_ne (hne : k ≠ j) : (fills s p j inum).1.entry k = s.1.entry k :=
  Function.update_of_ne hne ..

omit [Fintype P] in
theorem fills_lock : ((fills s p j inum).1.entry k).lock = (s.1.entry k).lock := by
  by_cases hk : k = j
  · rw [hk, fills_self]
  · rw [fills_of_ne hk]

omit [Fintype P] in
theorem Quiet.fills (i : ℕ) : Quiet i s (Volume.fills s p j inum) :=
  ⟨Or.inl rfl, fun _ => rfl, fun _ _ => rfl⟩

omit [Fintype P] in
theorem Uses.fills (h : Uses q k s) : Uses q k (Volume.fills s p j inum) := by
  rcases h with hvar | hfile
  · refine Or.inl ?_
    show k ∈ Function.update s.2.vars p (j ::ₘ s.2.vars p) q
    by_cases hq : q = p
    · subst hq
      rw [Function.update_self]
      exact Multiset.mem_cons_of_mem hvar
    · rwa [Function.update_of_ne hq]
  · exact Or.inr hfile

omit [Fintype P] in
theorem Steady.fills (h : Steady s k) (hne : k ≠ j) : Steady (Volume.fills s p j inum) k :=
  h.congr (by rw [SameContents, fills_of_ne hne]; exact ⟨rfl, rfl⟩) (by rw [fills_of_ne hne])
    (Quiet.fills _)

/-- The inode is not in the cache, and the entry is not in use. -/
structure Absent (s : Volume P × Ghost P) (j : Ptr) (inum : ℕ) : Prop where
  zero : (s.1.entry j).ref = 0
  absent : ∀ k, 0 < (s.1.entry k).ref → (s.1.entry k).inum ≠ inum

omit [Fintype P] [DecidableEq P] in
theorem Absent.ne (h : Absent s j inum) (hpos : 0 < (s.1.entry k).ref) : k ≠ j := fun heq => by
  rw [heq, h.zero] at hpos
  omega

omit [DecidableEq P] in
theorem Absent.unlocked (h : Absent s j inum) (hs : Inv sb s) : (s.1.entry j).lock = none := by
  by_contra hlock
  obtain ⟨q, hq⟩ := Option.ne_none_iff_exists'.mp hlock
  exact h.ne (hs.locked_pos hq) rfl

theorem Absent.inv (h : Absent s j inum) (hs : Inv sb s) (hused : s.1.used p = true) :
    Inv sb (fills s p j inum) where
  marked := hs.marked
  reserved := hs.reserved
  counted := by
    refine hs.counted.gain (e := .inl p) (x := j) (fun e he => ?_) (Function.update_self ..)
      fun k => ?_
    · cases e with
      | inl q => exact Function.update_of_ne (fun heq => he (by rw [heq])) ..
      | inr f => rfl
    · by_cases hk : k = j
      · rw [if_pos hk, hk, fills_self, h.zero]
      · rw [if_neg hk, fills_of_ne hk]
  files := hs.files
  unique k k' hpos hpos' heq := by
    by_cases hk : k = j <;> by_cases hk' : k' = j
    · rw [hk, hk']
    · rw [fills_of_ne hk'] at hpos' heq
      rw [hk, fills_self] at heq
      exact absurd heq.symm (h.absent k' hpos')
    · rw [fills_of_ne hk] at hpos heq
      rw [hk', fills_self] at heq
      exact absurd heq (h.absent k hpos)
    · rw [fills_of_ne hk] at hpos heq
      rw [fills_of_ne hk'] at hpos' heq
      exact hs.unique k k' hpos hpos' heq
  dev k hpos := by
    by_cases hk : k = j
    · rw [hk, fills_self]
    · rw [fills_of_ne hk] at hpos ⊢
      exact hs.dev k hpos
  locked k q hlock := (hs.locked k q (fills_lock.symm.trans hlock)).fills
  steady k hlock hpos := by
    by_cases hk : k = j
    · subst hk
      refine ⟨?_, fun hvalid => ?_⟩
      · rw [fills_self]
        refine (hs.settled inum fun k' hlock' => ?_).quiet (Quiet.fills _)
        obtain ⟨q, hq⟩ := Option.ne_none_iff_exists'.mp hlock'
        exact h.absent k' (hs.locked_pos hq)
      · rw [fills_self] at hvalid
        cases hvalid
    · rw [fills_of_ne hk] at hlock hpos
      exact (hs.steady k hlock hpos).fills hk
  settled i hi := by
    refine (hs.settled i fun k hlock => ?_).quiet (Quiet.fills i)
    have hk : k ≠ j := fun heq => hlock (by rw [heq, h.unlocked hs])
    have hinum := hi k (by rwa [fills_lock])
    rwa [fills_of_ne hk] at hinum
  closed := hs.closed
  fresh := hs.fresh
  unused q hunused := by
    have hne : q ≠ p := by
      rintro rfl
      exact absurd (hused.symm.trans hunused) (by simp)
    exact ⟨(Function.update_of_ne hne ..).trans (hs.unused q hunused).1, (hs.unused q hunused).2⟩

omit [Fintype P] in
theorem Absent.frame (h : Absent s j inum) : Frame p s (fills s p j inum) where
  same q hne _ := ⟨rfl, rfl, rfl, Function.update_of_ne hne .., rfl⟩
  born q hne hunused hidle := by
    refine ⟨hidle.hand, fun k hlock => hidle.lock k (fills_lock.symm.trans hlock), fun hused => ?_⟩
    exact absurd (hused.symm.trans hunused) (by simp)
  hand q _ := ⟨rfl, fun _ => rfl⟩
  lock _ _ k := by rw [fills_lock]
  contents k _ hpos := by
    rw [SameContents, fills_of_ne (h.ne hpos)]
    exact ⟨rfl, rfl⟩
  key k hpos := by
    rw [SameKey, fills_of_ne (h.ne hpos)]
    exact ⟨rfl, rfl⟩
  file _ _ f _ := SameFile.refl f s
  quiet i _ := Quiet.fills i

theorem Has.fills (h : Has p l s) (hs : Inv sb s) (habsent : Absent s j inum) :
    Has p (l.keep j) (Volume.fills s p j inum) where
  core := by
    refine ⟨h.core.used, h.core.cwd, h.core.ofile, ?_, h.core.fvars, h.core.ip, fun k => ?_⟩
    · show Function.update s.2.vars p (j ::ₘ s.2.vars p) p = j ::ₘ l.vars
      rw [Function.update_self, h.core.vars]
    · rw [fills_lock]
      exact h.core.lock k
  hand := h.hand
  sound k hk := by
    have hpos := hs.locked_pos ((h.core.lock k).mpr hk)
    exact ⟨(h.sound k hk).steady.fills (habsent.ne hpos), by
      rw [fills_of_ne (habsent.ne hpos)]
      exact (h.sound k hk).valid⟩

end Fills

theorem spec_iget :
    Spec P sb p (Has p l) (iget ROOTDEV inum) fun j => Has p (l.keep j) := by
  refine Logic.meets_atomic stable_has fun s hs h => ?_
  cases hcached : s.1.cached ROOTDEV inum with
  | some j =>
      have hgain := Table.gain (p := p) hs h.core.used (cached_some hcached)
      have hhas := h.of_recount hgain
      rw [h.core.vars] at hhas hgain
      refine Logic.does_next ?_ (hgain.inv hs) hgain.frame hhas
      simp only [hcached]
      rfl
  | none =>
      cases hempty : s.1.empty with
      | some j =>
          have habsent : Absent s j inum :=
            ⟨empty_some hempty, fun k hpos => cached_none hcached hpos (hs.dev k hpos)⟩
          refine Logic.does_next ?_ (habsent.inv hs h.core.used) habsent.frame (h.fills hs habsent)
          simp only [hcached, hempty]
      | none =>
          have hallowed : (logic P sb).allowed "iget: no inodes" := by simp [logic, Expected]
          refine Logic.does_panic ?_ hallowed
          simp only [hcached, hempty]

/-! ## `ialloc` -/

omit [DecidableEq P] in
theorem spec_takeInode :
    Spec P sb p (Has p l) (takeInode inum type) fun _ => Has p l := by
  refine spec_has fun s hs _ => ?_
  by_cases hfree : (s.1.disk.dinode inum).type = 0
  · refine ⟨_, _, if_pos hfree, Own.of_disk s.2.place s.2.hand
      (fun _ hK => hK.elim) (fun i _ => ⟨?_, fun _ => rfl, fun _ _ => rfl⟩)
      (fun q _ => ⟨rfl, fun _ => rfl⟩) hs.marked hs.reserved⟩
    by_cases hi : i = inum
    · subst hi
      refine Or.inr ⟨hfree, ?_⟩
      have hself := Function.update_self i ⟨type, 0, 0, 0, 0, fun _ => 0⟩ s.1.disk.dinode
      exact ⟨congrArg Dinode.size hself, congrArg Dinode.addrs hself⟩
    · exact Or.inl (Function.update_of_ne hi ..)
  · exact ⟨_, _, if_neg hfree, Own.of_disk _ _ (fun _ hK => hK.elim) (fun i _ => Quiet.refl i s)
      (fun q _ => HandKept.refl q s) hs.marked hs.reserved⟩

theorem spec_iallocFrom :
    Spec P sb p (Has p l) (iallocFrom sb ROOTDEV inum type) fun j => Has p (l.keep j) := by
  induction hrest : sb.ninodes - inum using Nat.strong_induction_on generalizing inum with
  | _ rest ih =>
  subst hrest
  rw [iallocFrom]
  by_cases hlt : inum < sb.ninodes
  · rw [if_pos hlt]
    refine spec_takeInode.bind fun free => ?_
    cases free with
    | true => exact spec_iget
    | false => exact ih _ (by omega) rfl
  · rw [if_neg hlt]
    exact Logic.meets_fail (by simp [logic, Expected])

theorem spec_ialloc :
    Spec P sb p (Has p l) (ialloc sb ROOTDEV type) fun j => Has p (l.keep j) := spec_iallocFrom

/-! ## `iput` -/

/-- The inode is free on the disk, and it has no blocks. -/
structure Dead (p : P) (j : Ptr) (s : Volume P × Ghost P) : Prop where
  hand : s.2.hand p = 0
  settled : Settled s (s.1.entry j).inum

omit [DecidableEq P] in
theorem keptBy_dead : KeptBy sb p j (Dead p j) := by
  intro s t hs hlock hkept h
  refine ⟨hkept.hand.hand.trans h.hand, ?_⟩
  rw [(hkept.key j (hs.locked j p hlock)).2]
  exact h.settled.quiet (hkept.quiet _ ⟨j, hlock, rfl⟩)

omit [DecidableEq P] in
/-- The inode is written back that has become free. -/
theorem spec_iupdate_free {a : Files.Block} (htype : d.type = 0) (hsize : d.size = 0)
    (hf : ∀ slot, f slot = 0) :
    Spec P sb p (On p l j (Held p j i d₀ d f a)) (iupdate j) fun _ => On p l j (Dead p j) := by
  refine spec_own keptBy_held (fun s h => h.holding.inum) fun s hs hlock h => ?_
  obtain ⟨hinum, hcopy, hvalid, hd₀, hdisk, hhand, hplace⟩ := h.holding
  have hdinode : (s.1.setDinode (s.1.entry j).inum (s.1.entry j).toDinode).disk.dinode
      (s.1.entry j).inum = d := by
    rw [hcopy]
    exact Function.update_self ..
  refine ⟨_, Own.of_disk s.2.place s.2.hand ?_ (fun i' hi' => ?_)
    (fun q hq => ⟨rfl, fun _ => rfl⟩) hs.marked hs.reserved, hhand, fun slot => ?_, ?_⟩
  · rintro _ rfl
    exact ⟨j, hlock, hinum⟩
  · refine ⟨Or.inl (Function.update_of_ne ?_ ..), fun _ => rfl, fun _ _ => rfl⟩
    rwa [hinum]
  · show s.2.place ((s.1.entry j).inum, slot) =
      addrOf ((s.1.setDinode _ _).disk.dinode (s.1.entry j).inum) s.1.disk.block slot
    rw [hdinode, addrOf_free htype, hinum, hplace, hf]
  · exact whole_of_size ((congrArg Dinode.size hdinode).trans hsize)

omit [DecidableEq P] in
theorem spec_setvalid :
    Spec P sb p (On p l j (Dead p j)) (setvalid j false) fun _ => On p l j (Orderly p j) := by
  refine Logic.meets_atomic (stable_on keptBy_dead) fun s hs h => ?_
  have hown := Own.of_contents (d := (s.1.entry j).toDinode) (v := false)
    h.locked rfl (fun _ _ _ => rfl) (fun _ _ => rfl) hs.marked hs.reserved
  refine does_own (c := ⟨⟩) (Z := fun _ => Orderly p j) h hs rfl rfl hown
    ⟨h.own.hand, ?_, fun hvalid => ?_⟩
  · dsimp only
    rw [setEntry_self]
    exact h.own.settled.quiet ⟨Or.inl rfl, fun _ => rfl, fun _ _ => rfl⟩
  · dsimp only at hvalid
    rw [setEntry_self] at hvalid
    cases hvalid

omit [DecidableEq P] in
theorem spec_lastReference (hj : j ∈ l.locks) :
    Spec P sb p (On p l j (Orderly p j)) (lastReference j) fun r s =>
      if r then Has p l s else On p l j (Orderly p j) s := by
  refine (spec_getinode (stable_on keptBy_orderly)).bind fun e => ?_
  by_cases hcond : e.valid ∧ e.nlink = 0
  · rw [if_pos hcond]
    refine Logic.Meets.of_imp (A := Has p l) ?_
      fun s _ ⟨h, he⟩ => h.has_of_valid (by rw [← he, hcond.1])
    refine (spec_look stable_has).bind fun e' => Logic.Meets.of_imp Logic.meets_pure fun s _ h => ?_
    split
    · exact h
    · exact h.orderly hj
  · rw [if_neg hcond]
    exact Logic.Meets.of_imp Logic.meets_pure fun s _ h => h.1

/-- The reference is given up. -/
theorem spec_drop (hj : j ∉ l.locks) :
    Spec P sb p (Has p (l.keep j))
      (Code.modify fun v => v.setEntry j fun e => { e with ref := e.ref - 1 })
      fun _ => Has p l := by
  refine Logic.meets_atomic stable_has fun s hs h => ?_
  have hdrop := Table.drop hs h.core.used h.core.vars fun hlock => hj ((h.core.lock j).mp hlock)
  exact Logic.does_next (a := ⟨⟩) rfl (hdrop.inv hs) hdrop.frame (h.of_recount hdrop)

theorem spec_iput : Spec P sb p (Has p (l.keep j)) (iput p j) fun _ => Has p l := by
  refine (spec_acquiresleep (Or.inl (Multiset.mem_cons_self ..))).bind fun _ =>
    Logic.meets_and fun hj => ?_
  have hmem : j ∈ ((l.keep j).lock j).locks := Set.mem_insert ..
  have hlast : Spec P sb p (On p ((l.keep j).lock j) j (Orderly p j)) (do
      releasesleep j
      Code.modify fun v => v.setEntry j fun e => { e with ref := e.ref - 1 }) fun _ => Has p l := by
    refine spec_releasesleep.bind fun _ => ?_
    rw [Local.unlock_lock hj]
    exact spec_drop hj
  refine (spec_lastReference hmem).bind fun last => ?_
  cases last with
  | false => exact hlast
  | true =>
      refine spec_of_open hmem fun i d f _ => spec_itrunc.bind fun _ => Logic.meets_exists fun d' =>
        Logic.meets_exists fun f' => Logic.meets_and fun hsize => Logic.meets_and fun hf => ?_
      refine Logic.Meets.of_imp
        (A := On p ((l.keep j).lock j) j (Held p j i d' d' f' fun _ => 0)) ?_ fun s _ h =>
          h.imp fun hopen => ⟨hopen.holding, fun hpos => absurd (hf _) hpos⟩
      refine (spec_setinode_held _).bind fun _ => ?_
      exact (spec_iupdate_free (d := { d' with type := 0 }) rfl hsize hf).bind fun _ =>
        spec_setvalid.bind fun _ => hlast

theorem spec_iunlockput (hj : j ∉ l.locks) :
    Spec P sb p (Has p ((l.keep j).lock j)) (iunlockput p j) fun _ => Has p l := by
  refine (spec_iunlock (l := (l.keep j).lock j) (Set.mem_insert ..)).bind fun _ => ?_
  rw [Local.unlock_lock (l := l.keep j) hj]
  exact spec_iput

end Volume

end Xv6
