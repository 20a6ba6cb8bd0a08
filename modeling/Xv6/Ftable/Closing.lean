import Xv6.Ftable.Books

/-!
# Closing a file

A process that is in a call has not exited and is not being created, and a new process
has no descriptors yet (`Lives`).  With this, `fileclose` and `pipeclose` have effects
that keep the books (`fileclose_effect`, `pipeclose_effect`).
-/

namespace Xv6.Ftable

open Transition

variable {P A : Type}

/-! ## Who is in a call -/

/-- The process that is being created. -/
def FilePc.child : FilePc P A → Option P
  | creating np | copying np _ => some np
  | _ => none

/-- What a process knows of descriptors. -/
def FilePc.Local (ofile : P → Fd → Option FileId) (p : P) : FilePc P A → Prop
  | filling _ f => ∃ fd, ofile p fd = some f
  | duping f fd => ofile p fd = some f ∧ ∃ fd', fd' ≠ fd ∧ ofile p fd' = some f
  | closing _ (.exit fd) | pipeClosing _ _ (.exit fd) => ∀ fd', fd' < fd → ofile p fd' = none
  | creating np => ∀ fd, ofile np fd = none
  | copying np i => ∀ fd : Fd, i ≤ fd → ofile np fd = none
  | exiting i => ∀ fd : Fd, fd < i → ofile p fd = none
  | _ => True

structure Lives (s : Filing P A) : Prop where
  idle : ∀ p, s.life p ≠ .running → s.pc p = .idle
  empty : ∀ p, s.life p = .unused ∨ s.life p = .zombie → ∀ fd, s.ofile p fd = none
  child : ∀ p np, (s.pc p).child = some np → s.life np = .embryo
  unshared : ∀ p p' np, (s.pc p).child = some np → (s.pc p').child = some np → p = p'
  known : ∀ p, (s.pc p).Local s.ofile p

variable {s t : Filing P A} {p : P} {f : FileId} {next : Next}

theorem FilePc.Local.congr {pc : FilePc P A} {ofile ofile' : P → Fd → Option FileId}
    (h : pc.Local ofile p) (hown : ofile' p = ofile p)
    (hchild : ∀ np, pc.child = some np → ofile' np = ofile np) : pc.Local ofile' p := by
  cases pc with
  | creating np =>
      have hsame := hchild np rfl
      intro fd
      rw [hsame]
      exact h fd
  | copying np i =>
      have hsame := hchild np rfl
      intro fd hfd
      rw [hsame]
      exact h fd hfd
  | closing f next =>
      cases next with
      | exit fd => exact fun fd' hfd' => by rw [hown]; exact h fd' hfd'
      | _ => trivial
  | pipeClosing a writable next =>
      cases next with
      | exit fd => exact fun fd' hfd' => by rw [hown]; exact h fd' hfd'
      | _ => trivial
  | filling omode f =>
      obtain ⟨fd, hfd⟩ := h
      exact ⟨fd, by rw [hown]; exact hfd⟩
  | duping f fd =>
      obtain ⟨hfd, fd', hne, hfd'⟩ := h
      exact ⟨by rw [hown]; exact hfd, fd', hne, by rw [hown]; exact hfd'⟩
  | exiting i => exact fun fd hfd => by rw [hown]; exact h fd hfd
  | _ => trivial

namespace Lives

theorem running (h : Lives s) (hpc : s.pc p ≠ .idle) : s.life p = .running := by
  by_contra hlife
  exact hpc (h.idle p hlife)

/-- A process goes on, and changes its own descriptors at most. -/
theorem own (h : Lives s) (hrun : s.life p = .running) (hlife : t.life = s.life)
    (hpc : ∀ q, q ≠ p → t.pc q = s.pc q) (hofile : ∀ q, q ≠ p → t.ofile q = s.ofile q)
    (hchild : (t.pc p).child = none) (hknown : (t.pc p).Local t.ofile p) : Lives t where
  idle q hq := by
    rw [hlife] at hq
    have hqp : q ≠ p := by
      rintro rfl
      exact hq hrun
    rw [hpc q hqp]
    exact h.idle q hq
  empty q hq fd := by
    rw [hlife] at hq
    have hqp : q ≠ p := by
      rintro rfl
      rw [hrun] at hq
      simp at hq
    rw [hofile q hqp]
    exact h.empty q hq fd
  child q np hq := by
    by_cases hqp : q = p
    · rw [hqp, hchild] at hq
      simp at hq
    · rw [hpc q hqp] at hq
      rw [hlife]
      exact h.child q np hq
  unshared q q' np hq hq' := by
    have hne : ∀ r, (t.pc r).child = some np → r ≠ p := by
      rintro r hr rfl
      rw [hchild] at hr
      simp at hr
    rw [hpc q (hne q hq)] at hq
    rw [hpc q' (hne q' hq')] at hq'
    exact h.unshared q q' np hq hq'
  known q := by
    by_cases hqp : q = p
    · rw [hqp]
      exact hknown
    · rw [hpc q hqp]
      refine (h.known q).congr (hofile q hqp) fun np hnp => hofile np ?_
      rintro rfl
      have hembryo := h.child q np hnp
      rw [hrun] at hembryo
      simp at hembryo

end Lives

/-! ## After a close -/

variable [DecidableEq P]

theorem after_life : (s.after p next).life = s.life := by cases next <;> rfl

theorem after_ftable : (s.after p next).ftable = s.ftable := by cases next <;> rfl

theorem after_pipes : (s.after p next).pipes = s.pipes := by cases next <;> rfl

theorem after_log : (s.after p next).log = s.log := by cases next <;> rfl

theorem after_of_ne {q : P} (hq : q ≠ p) :
    (s.after p next).pc q = s.pc q ∧ (s.after p next).ofile q = s.ofile q := by
  cases next <;> simp [Filing.after, Filing.goto, Filing.setOfile, hq]

/-- The references that are left. -/
theorem holds_after : (s.after p next).holds p =
    References.slots (visible (s.ofile p) next.slot) + next.hand := by
  cases next <;>
    simp [Filing.after, Filing.goto, Filing.setOfile, Filing.holds, FilePc.slot, FilePc.hand,
      Next.slot, Next.hand, visible]

theorem after_pc : ((s.after p next).pc p).child = none ∧ ((s.after p next).pc p).fresh = 0 ∧
    ((s.after p next).pc p).pipeEnd = none := by
  cases next <;> simp [Filing.after, Filing.goto, FilePc.child, FilePc.fresh, FilePc.pipeEnd]

theorem after_local (h : ∀ fd, next = .exit fd → ∀ fd', fd' < fd → s.ofile p fd' = none) :
    ((s.after p next).pc p).Local (s.after p next).ofile p := by
  cases next with
  | done => simp [Filing.after, Filing.goto, FilePc.Local]
  | close f => simp [Filing.after, Filing.goto, FilePc.Local]
  | exit fd =>
      simp only [Filing.after, Filing.goto, Filing.setOfile, FilePc.Local, Function.update_self]
      intro fd' hfd'
      by_cases heq : fd' = fd
      · rw [heq, Function.update_self]
      · rw [Function.update_of_ne heq]
        have hval : (fd' : ℕ) ≠ fd := fun hval => heq (Fin.ext hval)
        exact h fd rfl fd' (Fin.lt_def.mpr (by omega))

/-! ## The effect of each step -/

omit [DecidableEq P] in
theorem Lives.of_same (h : Lives s) (hlife : t.life = s.life) (hofile : t.ofile = s.ofile)
    (hpc : t.pc = s.pc) : Lives t := by
  obtain ⟨idle, empty, child, unshared, known⟩ := h
  exact ⟨by rwa [hlife, hpc], by rwa [hlife, hofile], by rwa [hlife, hpc], by rwa [hpc],
    by rwa [hofile, hpc]⟩

omit [DecidableEq P] in
theorem holds_of_same {q : P} (hofile : t.ofile q = s.ofile q) (hpc : t.pc q = s.pc q) :
    t.holds q = s.holds q := by
  rw [Filing.holds, Filing.holds, hofile, hpc]

theorem holds_after_of_ne {q : P} (hq : q ≠ p) : (s.after p next).holds q = s.holds q := by
  obtain ⟨hpc, hofile⟩ : (s.after p next).pc q = s.pc q ∧ (s.after p next).ofile q = s.ofile q :=
    after_of_ne hq
  exact holds_of_same hofile hpc

theorem pipeEnd_after (hpc : (s.pc p).pipeEnd = none) (q : P) :
    ((s.after p next).pc q).pipeEnd = (s.pc q).pipeEnd := by
  by_cases hq : q = p
  · rw [hq, after_pc.2.2, hpc]
  · rw [(after_of_ne hq).1]

theorem fresh_after (q : P) : ((s.after p next).pc q).fresh ≤ (s.pc q).fresh := by
  by_cases hq : q = p
  · rw [hq, after_pc.2.1]
    exact Multiset.zero_le _
  · rw [(after_of_ne hq).1]

@[simp] theorem goto_pc_self {pc : FilePc P A} : (s.goto p pc).pc p = pc := by
  simp [Filing.goto]

theorem goto_pc_of_ne {pc : FilePc P A} {q : P} (hq : q ≠ p) : (s.goto p pc).pc q = s.pc q := by
  simp [Filing.goto, hq]

theorem fresh_goto {pc : FilePc P A} (hpc : pc.fresh = 0) (q : P) :
    ((s.goto p pc).pc q).fresh ≤ (s.pc q).fresh := by
  by_cases hq : q = p
  · rw [hq, goto_pc_self, hpc]
    exact Multiset.zero_le _
  · rw [goto_pc_of_ne hq]

/-- The process goes on after a close. -/
theorem Lives.after (h : Lives s) (hrun : s.life p = .running)
    (hexit : ∀ fd, next = .exit fd → ∀ fd', fd' < fd → s.ofile p fd' = none) :
    Lives (s.after p next) :=
  h.own hrun after_life (fun _ hq => (after_of_ne hq).1) (fun _ hq => (after_of_ne hq).2)
    after_pc.1 (after_local hexit)

section Closing

variable [DecidableEq A]

theorem fileclose_effect (hlives : Lives s) (hpc : s.pc p = .closing f next)
    (h : s.fileclose p f next = .next t) : Effect s t p ∧ Lives t := by
  have hrun : s.life p = .running := hlives.running (by rw [hpc]; simp)
  have hexit : ∀ fd, next = .exit fd → ∀ fd', fd' < fd → s.ofile p fd' = none := by
    rintro fd rfl
    have hknown := hlives.known p
    rwa [hpc] at hknown
  have hend : (s.pc p).pipeEnd = none := by rw [hpc]; rfl
  have hholds : s.holds p =
      f ::ₘ (References.slots (visible (s.ofile p) next.slot) + next.hand) := by
    rw [Filing.holds, hpc]
    exact Multiset.add_cons _ _ _
  unfold Filing.fileclose at h
  dsimp only at h
  split at h
  · simp at h
  rename_i hpos
  split at h
  · rename_i hmore
    obtain rfl := Outcome.next.inj h
    have hlives' : Lives (s.setFile f { s.ftable f with ref := (s.ftable f).ref - 1 }) :=
      hlives.of_same rfl rfl rfl
    refine ⟨Effect.drop f (by omega) after_ftable after_pipes after_log ?_
      (fun q hq => holds_after_of_ne hq) (pipeEnd_after hend) fresh_after after_pc.2.1, ?_⟩
    · rw [hholds, holds_after]
      rfl
    · exact hlives'.after hrun hexit
  · have hone : (s.ftable f).ref = 1 := by omega
    have hlives' : Lives (s.setFile f { s.ftable f with ref := 0, type := .none }) :=
      hlives.of_same rfl rfl rfl
    have hafter (hfile : (s.ftable f).pipeEnd = none)
        (ht : t = (s.setFile f { s.ftable f with ref := 0, type := .none }).after p next) :
        Effect s t p ∧ Lives t := by
      subst ht
      refine ⟨Effect.last f hone after_ftable after_pipes after_log ?_
        (fun q hq => holds_after_of_ne hq) hend (after_pc.2.2.trans hfile.symm)
        (fun q _ => pipeEnd_after (s := s.setFile f _) hend q) fresh_after after_pc.2.1,
        hlives'.after hrun hexit⟩
      rw [hholds, holds_after]
      rfl
    cases htype : (s.ftable f).type with
    | none =>
        rw [htype] at h
        exact hafter (by rw [File.pipeEnd, htype]; rfl) (Outcome.next.inj h).symm
    | inode =>
        rw [htype] at h
        exact hafter (by rw [File.pipeEnd, htype]; rfl) (Outcome.next.inj h).symm
    | pipe =>
        cases hpipe : (s.ftable f).pipe with
        | none =>
            rw [htype, hpipe] at h
            simp at h
        | some a =>
            rw [htype, hpipe] at h
            obtain rfl := Outcome.next.inj h
            refine ⟨Effect.last f hone ?_ rfl rfl ?_ (fun q hq => ?_) hend ?_ (fun q hq => ?_)
              (fun q => ?_) ?_, hlives'.own hrun rfl (fun q hq => ?_) (fun _ _ => rfl) ?_ ?_⟩
            · simp [Filing.goto, Filing.setFile, hpipe]
            · rw [hholds]
              simp [Filing.holds, Filing.goto, Filing.setFile, FilePc.slot, FilePc.hand]
            · exact holds_of_same rfl (Function.update_of_ne hq _ _)
            · simp [Filing.goto, FilePc.pipeEnd, File.pipeEnd, htype, hpipe]
            · exact congrArg FilePc.pipeEnd (Function.update_of_ne hq _ _)
            · exact fresh_goto rfl q
            · simp [Filing.goto, FilePc.fresh]
            · exact Function.update_of_ne hq _ _
            · simp [Filing.goto, FilePc.child]
            · rw [goto_pc_self]
              cases next with
              | exit fd => exact hexit fd rfl
              | _ => trivial

theorem pipeclose_effect (hlives : Lives s) {a : A} {writable : Bool}
    (hpc : s.pc p = .pipeClosing a writable next) :
    Effect s (s.pipeclose p a writable next) p ∧ Lives (s.pipeclose p a writable next) := by
  have hrun : s.life p = .running := hlives.running (by rw [hpc]; simp)
  have hexit : ∀ fd, next = .exit fd → ∀ fd', fd' < fd → s.ofile p fd' = none := by
    rintro fd rfl
    have hknown := hlives.known p
    rwa [hpc] at hknown
  have hend : (s.pc p).pipeEnd = some (a, writable) := by rw [hpc]; rfl
  obtain ⟨hftable, hofile, hlife, hsame⟩ := shutPipe_rest s a writable
  have hlives' := hlives.of_same hlife hofile hsame
  refine ⟨Effect.shut a writable (after_ftable.trans hftable) after_pipes after_log (fun q => ?_)
    hend after_pc.2.2 (fun q hq => ?_) (fun q => ?_), hlives'.after (by rw [hlife, hrun]) ?_⟩
  · by_cases hq : q = p
    · subst hq
      rw [Filing.pipeclose, holds_after, hofile, Filing.holds, hpc]
      rfl
    · rw [Filing.pipeclose, holds_after_of_ne hq]
      exact holds_of_same (congrFun hofile q) (congrFun hsame q)
  · rw [Filing.pipeclose, (after_of_ne hq).1, hsame]
  · refine (fresh_after q).trans ?_
    rw [hsame]
  · rw [hofile]
    exact hexit

end Closing

end Xv6.Ftable
