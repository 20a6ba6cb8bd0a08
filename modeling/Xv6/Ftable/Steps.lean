import Xv6.Ftable.Closing

/-!
# The effects of the steps

Every step of every process has one of the effects that keep the books: `step_effect`.
Most steps move references between the descriptors of a process and its hands
(`move_effect`), or get a file from `filealloc` (`take_effect`).
-/

namespace Xv6.Ftable

open References Transition

variable {P A : Type} [DecidableEq P] {s s' t : Filing P A} {p : P} {f : FileId}

/-! ## Steps of one process -/

/-- Only file structures and the descriptors of `p` differ. -/
structure Quiet (s s' : Filing P A) (p : P) : Prop where
  pipes : s'.pipes = s.pipes
  log : s'.log = s.log
  life : s'.life = s.life
  pc : s'.pc = s.pc
  ofile : ∀ q, q ≠ p → s'.ofile q = s.ofile q

theorem setOfile_of_ne {fd : Fd} {o : Option FileId} {q : P} (hq : q ≠ p) :
    (s.setOfile p fd o).ofile q = s.ofile q := Function.update_of_ne hq _ _

theorem setOfile_self {fd : Fd} {o : Option FileId} :
    (s.setOfile p fd o).ofile p = Function.update (s.ofile p) fd o := Function.update_self _ _ _

namespace Quiet

omit [DecidableEq P] in
theorem refl : Quiet s s p := ⟨rfl, rfl, rfl, rfl, fun _ _ => rfl⟩

theorem setOfile {fd : Fd} {o : Option FileId} : Quiet s (s.setOfile p fd o) p :=
  ⟨rfl, rfl, rfl, rfl, fun _ hq => setOfile_of_ne hq⟩

omit [DecidableEq P] in
theorem filealloc : Quiet s (s.filealloc f) p := ⟨rfl, rfl, rfl, rfl, fun _ _ => rfl⟩

theorem holds_goto {pc : FilePc P A} (h : Quiet s s' p) {q : P} (hq : q ≠ p) :
    (s'.goto p pc).holds q = s.holds q :=
  holds_of_same (h.ofile q hq) (by rw [goto_pc_of_ne hq, h.pc])

theorem pipeEnd_goto {pc : FilePc P A} (h : Quiet s s' p) (hend : pc.pipeEnd = (s.pc p).pipeEnd)
    (q : P) : ((s'.goto p pc).pc q).pipeEnd = (s.pc q).pipeEnd := by
  by_cases hq : q = p
  · rw [hq, goto_pc_self, hend]
  · rw [goto_pc_of_ne hq, h.pc]

theorem lives_goto {pc : FilePc P A} (h : Quiet s s' p) (hlives : Lives s)
    (hrun : s.life p = .running) (hchild : pc.child = none) (hknown : pc.Local s'.ofile p) :
    Lives (s'.goto p pc) := by
  refine hlives.own hrun h.life (fun q hq => by rw [goto_pc_of_ne hq, h.pc]) h.ofile ?_ ?_
  · rw [goto_pc_self, hchild]
  · rw [goto_pc_self]
    exact hknown

end Quiet

theorem holds_goto_self {pc : FilePc P A} :
    (s.goto p pc).holds p = References.slots (visible (s.ofile p) pc.slot) + pc.hand := by
  rw [Filing.holds, goto_pc_self]
  rfl

theorem freeFd_none {ofile : Fd → Option FileId} {fd : Fd} (h : Filing.freeFd ofile = some fd) :
    ofile fd = none := by
  simpa using List.find?_some h

omit [DecidableEq P] in
theorem freeFile_ref (h : s.freeFile = some f) : (s.ftable f).ref = 0 := by
  simpa using List.find?_some h

variable [DecidableEq A]

/-- The references of the process move. -/
theorem move_effect {pc : FilePc P A} (h : Quiet s s' p) (hlives : Lives s)
    (hrun : s.life p = .running) (hftable : s'.ftable = s.ftable)
    (hholds : References.slots (visible (s'.ofile p) pc.slot) + pc.hand = s.holds p)
    (hend : pc.pipeEnd = (s.pc p).pipeEnd) (hfresh : pc.fresh ≤ (s.pc p).fresh)
    (hchild : pc.child = none) (hknown : pc.Local s'.ofile p) :
    Effect s (s'.goto p pc) p ∧ Lives (s'.goto p pc) := by
  refine ⟨Effect.move hftable h.pipes h.log (fun q => ?_) (h.pipeEnd_goto hend) (fun q => ?_),
    h.lives_goto hlives hrun hchild hknown⟩
  · by_cases hq : q = p
    · rw [hq, holds_goto_self, hholds]
    · exact h.holds_goto hq
  · by_cases hq : q = p
    · rw [hq, goto_pc_self]
      exact hfresh
    · rw [goto_pc_of_ne hq, h.pc]

/-- The process gets a file from `filealloc`. -/
theorem take_effect {pc : FilePc P A} (h : Quiet s s' p) (hlives : Lives s)
    (hrun : s.life p = .running) (hfree : s.freeFile = some f)
    (hftable : s'.ftable = (s.filealloc f).ftable)
    (hholds : References.slots (visible (s'.ofile p) pc.slot) + pc.hand = f ::ₘ s.holds p)
    (hend : pc.pipeEnd = (s.pc p).pipeEnd) (hfresh : pc.fresh ≤ f ::ₘ (s.pc p).fresh)
    (hchild : pc.child = none) (hknown : pc.Local s'.ofile p) :
    Effect s (s'.goto p pc) p ∧ Lives (s'.goto p pc) := by
  refine ⟨Effect.take f (freeFile_ref hfree) hftable h.pipes h.log ?_
    (fun q hq => h.holds_goto hq) (h.pipeEnd_goto hend) ?_ (fun q hq => ?_),
    h.lives_goto hlives hrun hchild hknown⟩
  · rw [holds_goto_self, hholds]
  · rw [goto_pc_self]
    exact hfresh
  · rw [goto_pc_of_ne hq, h.pc]

omit [DecidableEq P] in
theorem Effect.refl : Effect s s p :=
  Effect.move rfl rfl rfl (fun _ => rfl) (fun _ => rfl) fun _ => le_rfl

/-- The process goes on; only who lives may differ. -/
theorem parent_effect {pc : FilePc P A} (hftable : s'.ftable = s.ftable)
    (hpipes : s'.pipes = s.pipes) (hlog : s'.log = s.log) (hpc : s'.pc = s.pc)
    (hofile : s'.ofile = s.ofile)
    (hholds : References.slots (visible (s.ofile p) pc.slot) + pc.hand = s.holds p)
    (hend : pc.pipeEnd = (s.pc p).pipeEnd) (hfresh : pc.fresh ≤ (s.pc p).fresh) :
    Effect s (s'.goto p pc) p := by
  refine Effect.move hftable hpipes hlog (fun q => ?_) (fun q => ?_) fun q => ?_
  · by_cases hq : q = p
    · rw [hq, holds_goto_self, hofile, hholds]
    · exact holds_of_same (congrFun hofile q) (by rw [goto_pc_of_ne hq, hpc])
  · by_cases hq : q = p
    · rw [hq, goto_pc_self, hend]
    · rw [goto_pc_of_ne hq, hpc]
  · by_cases hq : q = p
    · rw [hq, goto_pc_self]
      exact hfresh
    · rw [goto_pc_of_ne hq, hpc]

omit [DecidableEq A] in
/-- Something happens to the process `np` that `p` is creating. -/
theorem Lives.change {np : P} (h : Lives s) (hne : np ≠ p) (hrun : s.life p = .running)
    (hidle : s.pc np = .idle) (hpc : ∀ q, q ≠ p → t.pc q = s.pc q)
    (hofile : ∀ q, q ≠ np → t.ofile q = s.ofile q) (hlife : ∀ q, q ≠ np → t.life q = s.life q)
    (halone : ∀ q, q ≠ p → (s.pc q).child ≠ some np)
    (hchild : (t.pc p).child = none ∨ (t.pc p).child = some np ∧ t.life np = .embryo)
    (hempty : t.life np = .unused ∨ t.life np = .zombie → ∀ fd, t.ofile np fd = none)
    (hknown : (t.pc p).Local t.ofile p) : Lives t where
  idle q hq := by
    by_cases hqnp : q = np
    · rw [hqnp, hpc np hne, hidle]
    · rw [hlife q hqnp] at hq
      have hqp : q ≠ p := by
        rintro rfl
        exact hq hrun
      rw [hpc q hqp]
      exact h.idle q hq
  empty q hq := by
    by_cases hqnp : q = np
    · subst hqnp
      exact hempty hq
    · rw [hlife q hqnp] at hq
      rw [hofile q hqnp]
      exact h.empty q hq
  child q m hq := by
    by_cases hqp : q = p
    · subst hqp
      rcases hchild with hnone | ⟨hsome, hembryo⟩
      · rw [hnone] at hq
        simp at hq
      · rw [hsome] at hq
        rw [← Option.some.inj hq, hembryo]
    · rw [hpc q hqp] at hq
      have hm : m ≠ np := by
        rintro rfl
        exact halone q hqp hq
      rw [hlife m hm]
      exact h.child q m hq
  unshared q q' m hq hq' := by
    have hold : ∀ r r', (t.pc r).child = some m → (t.pc r').child = some m → r = p → r' = p := by
      rintro r r' hr hr' rfl
      by_contra hr'p
      rw [hpc r' hr'p] at hr'
      rcases hchild with hnone | ⟨hsome, -⟩
      · rw [hnone] at hr
        simp at hr
      · rw [hsome] at hr
        exact halone r' hr'p (hr'.trans hr.symm)
    by_cases hqp : q = p
    · rw [hqp, hold q q' hq hq' hqp]
    by_cases hq'p : q' = p
    · exact absurd (hold q' q hq' hq hq'p) hqp
    · rw [hpc q hqp] at hq
      rw [hpc q' hq'p] at hq'
      exact h.unshared q q' m hq hq'
  known q := by
    by_cases hqp : q = p
    · rw [hqp]
      exact hknown
    rw [hpc q hqp]
    by_cases hqnp : q = np
    · rw [hqnp, hidle]
      trivial
    · refine (h.known q).congr (hofile q hqnp) fun m hm => hofile m ?_
      rintro rfl
      exact halone q hqp hm

omit [DecidableEq P] [DecidableEq A] in
/-- What is known of a process that is being created. -/
theorem Lives.of_child {np : P} (h : Lives s) (hchild : (s.pc p).child = some np) :
    np ≠ p ∧ s.pc np = .idle ∧ ∀ q, q ≠ p → (s.pc q).child ≠ some np := by
  have hembryo := h.child p np hchild
  have hidle := h.idle np (by rw [hembryo]; simp)
  refine ⟨?_, hidle, fun q hq hq' => hq (h.unshared q p np hq' hchild)⟩
  rintro rfl
  rw [hidle] at hchild
  simp [FilePc.child] at hchild

omit [DecidableEq P] [DecidableEq A] in
/-- A process without descriptors is done. -/
theorem Lives.finish (h : Lives s) (hembryo : s.life p ≠ .embryo)
    (hpc : ∀ q, q ≠ p → t.pc q = s.pc q) (hidle : t.pc p = .idle) (hofile : t.ofile = s.ofile)
    (hlife : ∀ q, q ≠ p → t.life q = s.life q) (hempty : ∀ fd, s.ofile p fd = none) :
    Lives t := by
  have hold : ∀ q m, (t.pc q).child = some m → (s.pc q).child = some m := by
    intro q m hq
    by_cases hqp : q = p
    · rw [hqp, hidle] at hq
      simp [FilePc.child] at hq
    · rwa [hpc q hqp] at hq
  refine ⟨fun q hq => ?_, fun q hq => ?_, fun q m hq => ?_, fun q q' m hq hq' => ?_, fun q => ?_⟩
  · by_cases hqp : q = p
    · rw [hqp, hidle]
    · rw [hlife q hqp] at hq
      rw [hpc q hqp]
      exact h.idle q hq
  · rw [hofile]
    by_cases hqp : q = p
    · rw [hqp]
      exact hempty
    · rw [hlife q hqp] at hq
      exact h.empty q hq
  · have hm := h.child q m (hold q m hq)
    have hmp : m ≠ p := by
      rintro rfl
      exact hembryo hm
    rw [hlife m hmp, hm]
  · exact h.unshared q q' m (hold q m hq) (hold q' m hq')
  · rw [hofile]
    by_cases hqp : q = p
    · rw [hqp, hidle]
      trivial
    · rw [hpc q hqp]
      exact h.known q

/-! ## The first step of a call -/

omit [DecidableEq P] [DecidableEq A] in
theorem holds_idle (hpc : s.pc p = .idle) : s.holds p = References.slots (s.ofile p) := by
  rw [Filing.holds, hpc]
  exact add_zero _

omit [DecidableEq A] in
/-- A descriptor that is not counted does not matter. -/
theorem slots_visible {ofile : Fd → Option FileId} {fd : Fd} (hfd : ofile fd = none)
    (o : Option FileId) : References.slots (visible (Function.update ofile fd o) (some fd)) =
      References.slots ofile := by
  rw [visible, Function.update_idem, ← hfd, Function.update_eq_self]

theorem allocproc_effect {np : Option P} (hlives : Lives s) (hrun : s.life p = .running)
    (hpc : s.pc p = .idle) (h : s.allocproc p np = .next t) : Effect s t p ∧ Lives t := by
  cases np with
  | none =>
      obtain rfl := Outcome.next.inj h
      exact ⟨Effect.refl, hlives⟩
  | some np =>
      simp only [Filing.allocproc] at h
      split at h
      · rename_i hnp
        obtain rfl := Outcome.next.inj h
        have hne : np ≠ p := by
          rintro rfl
          rw [hrun] at hnp
          simp at hnp
        refine ⟨parent_effect rfl rfl rfl rfl rfl ?_ (by rw [hpc]; rfl) (by rw [hpc]; rfl),
          hlives.change hne hrun (hlives.idle np (by rw [hnp]; simp)) (fun q hq => ?_)
            (fun _ _ => rfl) (fun q hq => Function.update_of_ne hq _ _) (fun q _ hnpq => ?_)
            (Or.inr ⟨?_, Function.update_self _ _ _⟩) (fun hlife => ?_) ?_⟩
        · rw [holds_idle hpc]
          exact add_zero _
        · exact goto_pc_of_ne hq
        · rw [hlives.child q np hnpq] at hnp
          simp at hnp
        · rw [goto_pc_self]
          rfl
        · simp [Filing.goto, Filing.setLife] at hlife
        · rw [goto_pc_self]
          exact hlives.empty np (Or.inl hnp)
      · simp at h

theorem call_effect {initproc : P} {c : FileCall P} (hlives : Lives s)
    (hrun : s.life p = .running) (hpc : s.pc p = .idle) (h : s.call p initproc c = .next t) :
    Effect s t p ∧ Lives t := by
  have hholds := holds_idle hpc
  cases c with
  | openFile omode =>
      obtain rfl := Outcome.next.inj h
      refine move_effect Quiet.refl hlives hrun rfl ?_ (by rw [hpc]; rfl) (by rw [hpc]; rfl)
        rfl trivial
      rw [hholds]
      exact add_zero _
  | dup fd =>
      simp only [Filing.call] at h
      split at h
      · obtain rfl := Outcome.next.inj h
        exact ⟨Effect.refl, hlives⟩
      rename_i f hf
      split at h
      · obtain rfl := Outcome.next.inj h
        exact ⟨Effect.refl, hlives⟩
      rename_i fd' hfree
      obtain rfl := Outcome.next.inj h
      have hnone := freeFd_none hfree
      have hne : fd ≠ fd' := by
        rintro rfl
        simp [hf] at hnone
      refine move_effect Quiet.setOfile hlives hrun rfl ?_ (by rw [hpc]; rfl) (by rw [hpc]; rfl)
        rfl ?_
      · rw [hholds]
        simp only [FilePc.slot, FilePc.hand, Filing.setOfile, Function.update_self, add_zero]
        exact slots_visible hnone _
      · simp only [FilePc.Local, Filing.setOfile, Function.update_self, true_and]
        exact ⟨fd, hne, by rw [Function.update_of_ne hne, hf]⟩
  | close fd =>
      simp only [Filing.call] at h
      split at h
      · obtain rfl := Outcome.next.inj h
        exact ⟨Effect.refl, hlives⟩
      rename_i f hf
      obtain rfl := Outcome.next.inj h
      refine move_effect Quiet.setOfile hlives hrun rfl ?_ (by rw [hpc]; rfl) (by rw [hpc]; rfl)
        rfl trivial
      rw [hholds, slots_clear hf]
      simp only [FilePc.slot, FilePc.hand, Next.slot, Next.hand, visible, Filing.setOfile,
        Function.update_self]
      exact Multiset.add_cons f _ 0 ▸ by rw [add_zero]
  | pipe =>
      obtain rfl := Outcome.next.inj h
      refine move_effect Quiet.refl hlives hrun rfl ?_ (by rw [hpc]; rfl) (by rw [hpc]; rfl)
        rfl trivial
      rw [hholds]
      exact add_zero _
  | fork np => exact allocproc_effect hlives hrun hpc h
  | custmpro np => exact allocproc_effect hlives hrun hpc h
  | exit =>
      simp only [Filing.call] at h
      split at h
      · simp at h
      obtain rfl := Outcome.next.inj h
      refine move_effect Quiet.refl hlives hrun rfl ?_ (by rw [hpc]; rfl) (by rw [hpc]; rfl)
        rfl (fun fd hfd => absurd hfd (Nat.not_lt_zero _))
      rw [hholds]
      exact add_zero _

/-! ## The next steps -/

theorem opening_effect {omode : ℕ} {found : Bool} {page : Option A} (hlives : Lives s)
    (hpc : s.pc p = .opening omode) (h : s.proceed p found page (.opening omode) = .next t) :
    Effect s t p ∧ Lives t := by
  have hrun := hlives.running (p := p) (by rw [hpc]; simp)
  have hholds : s.holds p = References.slots (s.ofile p) := by
    rw [Filing.holds, hpc]
    exact add_zero _
  have hgiveup : Effect s (s.goto p .idle) p ∧ Lives (s.goto p .idle) := by
    refine move_effect Quiet.refl hlives hrun rfl ?_ (by rw [hpc]; rfl) (by rw [hpc]; rfl)
      rfl trivial
    rw [hholds]
    exact add_zero _
  simp only [Filing.proceed] at h
  split at h
  · split at h
    · obtain rfl := Outcome.next.inj h
      exact hgiveup
    rename_i f hf
    split at h
    · obtain rfl := Outcome.next.inj h
      refine take_effect Quiet.filealloc hlives hrun hf rfl ?_ (by rw [hpc]; rfl)
        (Multiset.zero_le _) rfl trivial
      rw [hholds]
      exact Multiset.add_cons f _ 0 ▸ by rw [add_zero]; rfl
    · rename_i fd hfd
      obtain rfl := Outcome.next.inj h
      have hnone := freeFd_none hfd
      refine take_effect ⟨rfl, rfl, rfl, rfl, fun _ hq => setOfile_of_ne hq⟩ hlives hrun hf rfl ?_
        (by rw [hpc]; rfl) ?_ rfl ⟨fd, by simp [Filing.setOfile]⟩
      · rw [hholds, ← slots_fill hnone f]
        simp [FilePc.slot, FilePc.hand, visible, Filing.setOfile, Filing.filealloc, Filing.setFile]
      · rw [hpc]
        exact le_rfl
  · obtain rfl := Outcome.next.inj h
    exact hgiveup

theorem filling_effect {omode : ℕ} (hlives : Lives s) (hpc : s.pc p = .filling omode f) :
    Effect s ((s.fillInode omode f).goto p .idle) p ∧
      Lives ((s.fillInode omode f).goto p .idle) := by
  have hrun := hlives.running (p := p) (by rw [hpc]; simp)
  have hquiet : Quiet s (s.fillInode omode f) p := ⟨rfl, rfl, rfl, rfl, fun _ _ => rfl⟩
  have hftable : (s.fillInode omode f).ftable =
      Function.update s.ftable f ((s.fillInode omode f).ftable f) := by
    simp [Filing.fillInode, Filing.setFile]
  refine ⟨Effect.fill f ?_ _ (by simp [Filing.fillInode, Filing.setFile])
    (by simp [Filing.fillInode, Filing.setFile]) hftable rfl rfl (fun q => ?_)
    (hquiet.pipeEnd_goto (by rw [hpc]; rfl)) ?_ (fun q hq => ?_),
    hquiet.lives_goto hlives hrun rfl trivial⟩
  · rw [hpc]
    exact Multiset.mem_singleton_self f
  · by_cases hq : q = p
    · rw [hq, holds_goto_self, Filing.holds, hpc]
      rfl
    · exact hquiet.holds_goto hq
  · rw [goto_pc_self]
    rfl
  · rw [goto_pc_of_ne hq, hquiet.pc]

omit [DecidableEq P] [DecidableEq A] in
theorem filedup_eq_next (h : s.filedup f = .next t) :
    t = s.setFile f { s.ftable f with ref := (s.ftable f).ref + 1 } := by
  unfold Filing.filedup at h
  split at h
  · simp at h
  · exact (Outcome.next.inj h).symm

theorem duping_effect {fd : Fd} (hlives : Lives s) (hpc : s.pc p = .duping f fd)
    (h : s.filedup f = .next t) : Effect s (t.goto p .idle) p ∧ Lives (t.goto p .idle) := by
  have hrun := hlives.running (p := p) (by rw [hpc]; simp)
  have hknown := hlives.known p
  rw [hpc] at hknown
  obtain ⟨hfd, fd', hne, hfd'⟩ := hknown
  have hholds : s.holds p = References.slots (visible (s.ofile p) (some fd)) := by
    rw [Filing.holds, hpc]
    exact add_zero _
  obtain rfl := filedup_eq_next h
  have hquiet : Quiet s (s.setFile f { s.ftable f with ref := (s.ftable f).ref + 1 }) p :=
    ⟨rfl, rfl, rfl, rfl, fun _ _ => rfl⟩
  refine ⟨Effect.share p f ?_ rfl rfl rfl ?_ (fun q hq => hquiet.holds_goto hq)
    (hquiet.pipeEnd_goto (by rw [hpc]; rfl)) (by rw [hpc]; rfl) (fresh_goto rfl),
    hquiet.lives_goto hlives hrun rfl trivial⟩
  · rw [hholds, References.mem_slots]
    exact ⟨fd', by rw [visible, Function.update_of_ne hne, hfd']⟩
  · rw [holds_goto_self, hholds, visible, ← slots_clear hfd]
    exact add_zero _

theorem pipe0_effect (hlives : Lives s) {found : Bool} {page : Option A} (hpc : s.pc p = .pipe0)
    (h : s.proceed p found page .pipe0 = .next t) : Effect s t p ∧ Lives t := by
  have hrun := hlives.running (p := p) (by rw [hpc]; simp)
  have hholds : s.holds p = References.slots (s.ofile p) := by
    rw [Filing.holds, hpc]
    exact add_zero _
  simp only [Filing.proceed] at h
  split at h
  · obtain rfl := Outcome.next.inj h
    refine move_effect Quiet.refl hlives hrun rfl ?_ (by rw [hpc]; rfl) (by rw [hpc]; rfl)
      rfl trivial
    rw [hholds]
    exact add_zero _
  · rename_i f0 hf0
    obtain rfl := Outcome.next.inj h
    refine take_effect Quiet.filealloc hlives hrun hf0 rfl ?_ (by rw [hpc]; rfl) ?_ rfl trivial
    · rw [hholds, ← Multiset.singleton_add, add_comm]
      rfl
    · rw [hpc]
      exact le_rfl

theorem pipe1_effect (hlives : Lives s) {found : Bool} {page : Option A} {f0 : FileId}
    (hpc : s.pc p = .pipe1 f0) (h : s.proceed p found page (.pipe1 f0) = .next t) :
    Effect s t p ∧ Lives t := by
  have hrun := hlives.running (p := p) (by rw [hpc]; simp)
  have hholds : s.holds p = References.slots (s.ofile p) + {f0} := by
    rw [Filing.holds, hpc]
    rfl
  simp only [Filing.proceed] at h
  split at h
  · obtain rfl := Outcome.next.inj h
    refine move_effect Quiet.refl hlives hrun rfl ?_ (by rw [hpc]; rfl) (Multiset.zero_le _)
      rfl trivial
    rw [hholds]
    rfl
  · rename_i f1 hf1
    obtain rfl := Outcome.next.inj h
    refine take_effect Quiet.filealloc hlives hrun hf1 rfl ?_ (by rw [hpc]; rfl) ?_ rfl trivial
    · rw [hholds, ← Multiset.add_cons]
      exact congrArg _ (Multiset.pair_comm f0 f1)
    · rw [hpc]
      exact (Multiset.pair_comm f0 f1).le

omit [DecidableEq P] [DecidableEq A] in
theorem fillPipe_same (f0 f1 : FileId) (a : A) [DecidableEq A] :
    (s.fillPipe f0 f1 a).ofile = s.ofile ∧ (s.fillPipe f0 f1 a).life = s.life ∧
      (s.fillPipe f0 f1 a).pc = s.pc := ⟨rfl, rfl, rfl⟩

/-- A pipe is made, and the process goes on with the two references. -/
theorem make_effect {f0 f1 : FileId} {a : A} {pc : FilePc P A} (hlives : Lives s)
    (hpc : s.pc p = .pipe2 f0 f1) (hfree : s.pipes a = none)
    (h : Quiet (s.fillPipe f0 f1 a) s' p)
    (hftable : s'.ftable = (s.fillPipe f0 f1 a).ftable)
    (hholds : References.slots (visible (s'.ofile p) pc.slot) + pc.hand = s.holds p)
    (hend : pc.pipeEnd = none) (hfresh : pc.fresh = 0) (hchild : pc.child = none)
    (hknown : pc.Local s'.ofile p) :
    Effect s (s'.goto p pc) p ∧ Lives (s'.goto p pc) := by
  have hrun := hlives.running (p := p) (by rw [hpc]; simp)
  have hlives' : Lives (s.fillPipe f0 f1 a) := hlives.of_same rfl rfl rfl
  refine ⟨Effect.make f0 f1 a (by rw [hpc]; rfl) hfree hftable h.pipes h.log (fun q => ?_)
    (h.pipeEnd_goto ?_) ?_ (fun q hq => ?_), h.lives_goto hlives' hrun hchild hknown⟩
  · by_cases hq : q = p
    · rw [hq, holds_goto_self, hholds]
    · exact h.holds_goto hq
  · show pc.pipeEnd = (s.pc p).pipeEnd
    rw [hend, hpc]
    rfl
  · rw [goto_pc_self, hfresh]
  · rw [goto_pc_of_ne hq, h.pc]
    rfl

theorem pipe2_effect (hlives : Lives s) {found : Bool} {page : Option A} {f0 f1 : FileId}
    (hpc : s.pc p = .pipe2 f0 f1) (h : s.proceed p found page (.pipe2 f0 f1) = .next t) :
    Effect s t p ∧ Lives t := by
  have hrun := hlives.running (p := p) (by rw [hpc]; simp)
  have hholds : s.holds p = References.slots (s.ofile p) + {f0, f1} := by
    rw [Filing.holds, hpc]
    rfl
  simp only [Filing.proceed] at h
  split at h
  · obtain rfl := Outcome.next.inj h
    refine move_effect Quiet.refl hlives hrun rfl ?_ (by rw [hpc]; rfl) (Multiset.zero_le _)
      rfl trivial
    rw [hholds]
    rfl
  rename_i a
  split at h
  · rename_i hfree
    have hrefuse : Effect s ((s.fillPipe f0 f1 a).goto p (.closing f0 (.close f1))) p ∧
        Lives ((s.fillPipe f0 f1 a).goto p (.closing f0 (.close f1))) := by
      refine make_effect hlives hpc hfree Quiet.refl rfl ?_ rfl rfl rfl trivial
      rw [hholds]
      rfl
    obtain rfl := Outcome.next.inj h
    unfold Filing.installPipe
    split
    · exact hrefuse
    rename_i fd0 hfd0
    split
    · exact hrefuse
    rename_i fd1 hfd1
    refine make_effect hlives hpc hfree
      ⟨rfl, rfl, rfl, rfl, fun q hq => (setOfile_of_ne hq).trans (setOfile_of_ne hq)⟩ rfl ?_
      rfl rfl rfl trivial
    have hnone0 : s.ofile p fd0 = none := freeFd_none hfd0
    have hnone1 := freeFd_none hfd1
    rw [setOfile_self] at hnone1
    change Function.update (s.ofile p) fd0 _ fd1 = none at hnone1
    rw [setOfile_self, setOfile_self]
    show References.slots (Function.update (Function.update (s.ofile p) fd0 _) fd1 _) + 0 = _
    rw [slots_fill hnone1, slots_fill hnone0, hholds, add_zero]
    rw [Multiset.insert_eq_cons, Multiset.add_cons, add_comm, Multiset.singleton_add]
    exact Multiset.cons_swap _ _ _
  · simp at h

theorem creating_effect {np : P} {found : Bool} {page : Option A} (hlives : Lives s)
    (hpc : s.pc p = .creating np) (h : s.proceed p found page (.creating np) = .next t) :
    Effect s t p ∧ Lives t := by
  have hrun := hlives.running (p := p) (by rw [hpc]; simp)
  have hchild : (s.pc p).child = some np := by rw [hpc]; rfl
  have hembryo := hlives.child p np hchild
  have hknown := hlives.known p
  rw [hpc] at hknown
  have hholds : s.holds p = References.slots (s.ofile p) := by
    rw [Filing.holds, hpc]
    exact add_zero _
  obtain ⟨hne, hidle, halone⟩ := hlives.of_child hchild
  simp only [Filing.proceed] at h
  split at h
  · obtain rfl := Outcome.next.inj h
    refine ⟨parent_effect rfl rfl rfl rfl rfl ?_ (by rw [hpc]; rfl) (by rw [hpc]; rfl),
      hlives.change hne hrun hidle (fun q hq => goto_pc_of_ne hq) (fun _ _ => rfl)
        (fun _ _ => rfl) halone (Or.inr ⟨?_, hembryo⟩) (fun _ => hknown) ?_⟩
    · rw [hholds]
      exact add_zero _
    · rw [goto_pc_self]
      rfl
    · rw [goto_pc_self]
      exact fun fd _ => hknown fd
  · obtain rfl := Outcome.next.inj h
    refine ⟨parent_effect rfl rfl rfl rfl rfl ?_ (by rw [hpc]; rfl) (by rw [hpc]; rfl),
      hlives.change hne hrun hidle (fun q hq => goto_pc_of_ne hq) (fun _ _ => rfl)
        (fun q hq => Function.update_of_ne hq _ _) halone (Or.inl ?_) (fun _ => hknown) ?_⟩
    · rw [hholds]
      exact add_zero _
    · rw [goto_pc_self]
      rfl
    · rw [goto_pc_self]
      trivial

theorem copying_effect {np : P} {i : ℕ} {found : Bool} {page : Option A} (hlives : Lives s)
    (hpc : s.pc p = .copying np i) (h : s.proceed p found page (.copying np i) = .next t) :
    Effect s t p ∧ Lives t := by
  have hrun := hlives.running (p := p) (by rw [hpc]; simp)
  have hchild : (s.pc p).child = some np := by rw [hpc]; rfl
  have hembryo := hlives.child p np hchild
  have hknown : ∀ fd : Fd, i ≤ fd → s.ofile np fd = none := by
    have hknown := hlives.known p
    rwa [hpc] at hknown
  have hholds : s.holds p = References.slots (s.ofile p) := by
    rw [Filing.holds, hpc]
    exact add_zero _
  obtain ⟨hne, hidle, halone⟩ := hlives.of_child hchild
  have hnotDead : ¬(s.life np = .unused ∨ s.life np = .zombie) := by
    rw [hembryo]
    simp
  simp only [Filing.proceed] at h
  split at h
  · rename_i hi
    split at h
    · obtain rfl := Outcome.next.inj h
      rename_i hfd
      refine ⟨parent_effect rfl rfl rfl rfl rfl ?_ (by rw [hpc]; rfl) (by rw [hpc]; rfl),
        hlives.change hne hrun hidle (fun q hq => goto_pc_of_ne hq) (fun _ _ => rfl)
          (fun _ _ => rfl) halone (Or.inr ⟨?_, hembryo⟩) (fun hdead => absurd hdead hnotDead) ?_⟩
      · rw [hholds]
        exact add_zero _
      · rw [goto_pc_self]
        rfl
      · rw [goto_pc_self]
        exact fun fd hfd => hknown fd (by omega)
    · rename_i f hf
      obtain ⟨s', hs', h⟩ := Outcome.bind_eq_next.mp h
      obtain rfl := Outcome.next.inj h
      obtain rfl := filedup_eq_next hs'
      have hfree : s.ofile np ⟨i, hi⟩ = none := hknown ⟨i, hi⟩ le_rfl
      refine ⟨Effect.share np f ?_ rfl rfl rfl ?_ (fun q hq => ?_) (fun q => ?_)
        (by rw [hpc]; rfl) (fresh_goto rfl),
        hlives.change hne hrun hidle (fun q hq => goto_pc_of_ne hq)
          (fun q hq => setOfile_of_ne hq) (fun _ _ => rfl) halone (Or.inr ⟨?_, hembryo⟩)
          (fun hdead => absurd hdead hnotDead) ?_⟩
      · rw [hholds, References.mem_slots]
        exact ⟨_, hf⟩
      · rw [Filing.holds, Filing.holds, goto_pc_of_ne hne]
        show References.slots (visible (Filing.ofile (Filing.setOfile _ np _ _) np)
          (s.pc np).slot) + (s.pc np).hand = f ::ₘ _
        rw [setOfile_self, hidle]
        show References.slots (Function.update (s.ofile np) _ _) + 0 =
          f ::ₘ (References.slots (s.ofile np) + 0)
        rw [slots_fill hfree, add_zero, add_zero]
      · by_cases hqp : q = p
        · rw [hqp, holds_goto_self, setOfile_of_ne hne.symm, hholds]
          exact add_zero _
        · exact holds_of_same (setOfile_of_ne hq) (goto_pc_of_ne hqp)
      · by_cases hqp : q = p
        · rw [hqp, goto_pc_self, hpc]
          rfl
        · rw [goto_pc_of_ne hqp]
          rfl
      · rw [goto_pc_self]
        rfl
      · rw [goto_pc_self]
        intro fd hfd
        show Filing.ofile (Filing.setOfile _ np _ _) np fd = none
        have hfdi : fd ≠ ⟨i, hi⟩ := by
          rintro rfl
          exact absurd hfd (by simp)
        rw [setOfile_self, Function.update_of_ne hfdi]
        exact hknown fd (by omega)
  · obtain rfl := Outcome.next.inj h
    refine ⟨parent_effect rfl rfl rfl rfl rfl ?_ (by rw [hpc]; rfl) (by rw [hpc]; rfl),
      hlives.change hne hrun hidle (fun q hq => goto_pc_of_ne hq) (fun _ _ => rfl)
        (fun q hq => Function.update_of_ne hq _ _) halone (Or.inl ?_) (fun hdead => ?_) ?_⟩
    · rw [hholds]
      exact add_zero _
    · rw [goto_pc_self]
      rfl
    · simp [Filing.goto, Filing.setLife] at hdead
    · rw [goto_pc_self]
      trivial

theorem exiting_effect {i : ℕ} {found : Bool} {page : Option A} (hlives : Lives s)
    (hpc : s.pc p = .exiting i) (h : s.proceed p found page (.exiting i) = .next t) :
    Effect s t p ∧ Lives t := by
  have hrun := hlives.running (p := p) (by rw [hpc]; simp)
  have hknown : ∀ fd : Fd, fd < i → s.ofile p fd = none := by
    have hknown := hlives.known p
    rwa [hpc] at hknown
  have hholds : s.holds p = References.slots (s.ofile p) := by
    rw [Filing.holds, hpc]
    exact add_zero _
  simp only [Filing.proceed] at h
  split at h
  · rename_i hi
    split at h
    · rename_i hnone
      obtain rfl := Outcome.next.inj h
      refine move_effect Quiet.refl hlives hrun rfl ?_ (by rw [hpc]; rfl) (by rw [hpc]; rfl)
        rfl fun fd hfd => ?_
      · rw [hholds]
        exact add_zero _
      · rcases Nat.lt_succ_iff_lt_or_eq.mp hfd with hlt | heq
        · exact hknown fd hlt
        · rwa [show fd = ⟨i, hi⟩ from Fin.ext heq]
    · rename_i f hf
      obtain rfl := Outcome.next.inj h
      refine move_effect Quiet.refl hlives hrun rfl ?_ (by rw [hpc]; rfl) (by rw [hpc]; rfl)
        rfl fun fd hfd => hknown fd hfd
      rw [hholds, slots_clear hf, ← Multiset.singleton_add, add_comm]
      rfl
  · rename_i hi
    obtain rfl := Outcome.next.inj h
    have hempty : ∀ fd, s.ofile p fd = none := fun fd => hknown fd (by omega)
    refine ⟨parent_effect rfl rfl rfl rfl rfl ?_ (by rw [hpc]; rfl) (by rw [hpc]; rfl),
      hlives.finish (by rw [hrun]; simp) (fun q hq => goto_pc_of_ne hq) goto_pc_self rfl
        (fun q hq => Function.update_of_ne hq _ _) hempty⟩
    rw [hholds]
    exact add_zero _

theorem proceed_effect {found : Bool} {page : Option A} (hlives : Lives s)
    (h : s.proceed p found page (s.pc p) = .next t) : Effect s t p ∧ Lives t := by
  cases hpc : s.pc p with
  | idle =>
      rw [hpc] at h
      simp [Filing.proceed] at h
  | opening omode =>
      rw [hpc] at h
      exact opening_effect hlives hpc h
  | filling omode f =>
      rw [hpc] at h
      obtain rfl := Outcome.next.inj h
      exact filling_effect hlives hpc
  | duping f fd =>
      rw [hpc] at h
      obtain ⟨s', hs', h⟩ := Outcome.bind_eq_next.mp h
      obtain rfl := Outcome.next.inj h
      exact duping_effect hlives hpc hs'
  | closing f next =>
      rw [hpc] at h
      exact fileclose_effect hlives hpc h
  | pipeClosing a writable next =>
      rw [hpc] at h
      obtain rfl := Outcome.next.inj h
      exact pipeclose_effect hlives hpc
  | pipe0 =>
      rw [hpc] at h
      exact pipe0_effect hlives hpc h
  | pipe1 f0 =>
      rw [hpc] at h
      exact pipe1_effect hlives hpc h
  | pipe2 f0 f1 =>
      rw [hpc] at h
      exact pipe2_effect hlives hpc h
  | creating np =>
      rw [hpc] at h
      exact creating_effect hlives hpc h
  | copying np i =>
      rw [hpc] at h
      exact copying_effect hlives hpc h
  | exiting i =>
      rw [hpc] at h
      exact exiting_effect hlives hpc h

theorem reap_effect (hlives : Lives s) (hzombie : s.life p = .zombie) :
    Effect s (s.setLife p .unused) p ∧ Lives (s.setLife p .unused) := by
  have hidle := hlives.idle p (by rw [hzombie]; simp)
  exact ⟨Effect.move rfl rfl rfl (fun _ => rfl) (fun _ => rfl) fun _ => le_rfl,
    hlives.finish (by rw [hzombie]; simp) (fun _ _ => rfl) hidle rfl
      (fun q hq => Function.update_of_ne hq _ _) (hlives.empty p (Or.inr hzombie))⟩

/-- What any step does. -/
theorem step_effect {initproc : P} {action : FileAction P A} (hlives : Lives s)
    (h : Filing.step initproc s action = .next t) : (∃ p, Effect s t p) ∧ Lives t := by
  cases action with
  | call p c =>
      simp only [Filing.step] at h
      split at h
      · rename_i hrun
        split at h
        · rename_i hpc
          obtain ⟨heffect, hlives'⟩ := call_effect hlives hrun hpc h
          exact ⟨⟨p, heffect⟩, hlives'⟩
        · simp at h
      · simp at h
  | proceed p found page =>
      obtain ⟨heffect, hlives'⟩ := proceed_effect hlives h
      exact ⟨⟨p, heffect⟩, hlives'⟩
  | reap np =>
      simp only [Filing.step] at h
      split at h
      · rename_i hzombie
        obtain rfl := Outcome.next.inj h
        obtain ⟨heffect, hlives'⟩ := reap_effect hlives hzombie
        exact ⟨⟨np, heffect⟩, hlives'⟩
      · simp at h

end Xv6.Ftable
