import Xv6.Proc.Pages
import Xv6.Proc.Lifecycle

/-!
# Dispatches

A CPU dispatches a process when it starts to execute it.  Only the scheduler's
step from its scan to `swtch` does that, and only to a slot that the scan chose.
While a scheduler scans, no other CPU makes a process `RUNNABLE` or changes one
that is.
-/

namespace Xv6

open Transition

variable {C : Type} {kernel : Kernel} {s s' t : State C} {a : Action C} {c : C} {p q : Slot}

/-- By the step from `s` to `s'` CPU `c` switches to process `p`. -/
def Dispatches (s s' : State C) (c : C) (p : Slot) : Prop :=
  (s.cpu c).ctrl ≠ .run p ∧ (s'.cpu c).ctrl = .run p

variable [DecidableEq C]

instance (s s' : State C) (c : C) (p : Slot) : Decidable (Dispatches s s' c p) :=
  inferInstanceAs (Decidable (_ ∧ _))

/-- The step by which a CPU dispatches a process. -/
theorem Step.of_dispatches (hstep : Step kernel s a s') (h : Dispatches s s' c p) :
    a = .pick c ∧ ∃ first pgdir, (s.cpu c).ctrl = .scan first ∧
      State.choose kernel s.proc first = some p ∧
      s' = (s.setCpu c { ctrl := .run p, proc := some p, cr3 := some pgdir }).setProc p
        fun q => { q with state := .running } := by
  obtain ⟨hbefore, hafter⟩ := h
  have hother : ∀ {cpu : Cpu} {c' : C}, (∀ q, cpu.ctrl = .run q → (s.cpu c').ctrl = .run q) →
      (Function.update s.cpu c' cpu c).ctrl = .run p → False := by
    intro cpu c' hcpu hrun
    rw [Function.update_apply] at hrun
    split at hrun
    · rename_i hc
      exact hbefore (hc ▸ hcpu p hrun)
    · exact hbefore hrun
  cases hstep with
  | dispatch c' first p' pgdir hctrl hchoose hkstack hpgdir =>
      by_cases hc : c = c'
      · subst hc
        obtain rfl : p' = p := by simpa using hafter
        exact ⟨rfl, first, pgdir, hctrl, hchoose, rfl⟩
      · exact absurd (by simpa [hc] using hafter) hbefore
  | startPass c' => exact (hother (by simp) hafter).elim
  | endPass c' => exact (hother (by simp) hafter).elim
  | backFcfs c' => exact (hother (by simp) hafter).elim
  | backPriority c' => exact (hother (by simp) hafter).elim
  | yield c' => exact (hother (by simp) hafter).elim
  | sleep c' => exact (hother (by simp) hafter).elim
  | zombie c' => exact (hother (by simp) hafter).elim
  | growproc c' p' pgdir => exact absurd ((State.reload_cpu c' pgdir c).1.symm.trans hafter) hbefore
  | execSwitch c' p' oldpgdir pgdir =>
      exact absurd ((State.reload_cpu c' pgdir c).1.symm.trans hafter) hbefore
  | round a c' p' request scanning s' hentry hround =>
      rw [← hentry.cpu] at hbefore hother
      cases hround with
      | reaped => exact absurd hafter hbefore
      | gaveUp => exact absurd hafter hbefore
      | slept => exact (hother (by simp) hafter).elim
  | _ => exact absurd hafter hbefore

/-- The scheduler switches to what its scan has chosen, if that has its pages. -/
theorem exists_dispatch_of_pages {first : ℕ} (hctrl : (s.cpu c).ctrl = .scan first)
    (hchoose : State.choose kernel s.proc first = some p)
    (hpages : (s.proc p).kstack ≠ none ∧ (s.proc p).pgdir ≠ none) :
    ∃ s', step kernel s (.pick c) = .next s' ∧ Dispatches s s' c p := by
  obtain ⟨pgdir, hpgdir⟩ := Option.ne_none_iff_exists'.mp hpages.2
  refine ⟨(s.setCpu c { ctrl := .run p, proc := some p, cr3 := some pgdir }).setProc p
    fun q => { q with state := .running }, ?_, ?_⟩
  · simp [step, State.pick, hctrl, hchoose, State.dispatch, switchuvm, hpages.1, hpgdir]
  · simp [Dispatches, hctrl]

theorem exists_dispatch (hpages : PageInv s) {first : ℕ} (hctrl : (s.cpu c).ctrl = .scan first)
    (hchoose : State.choose kernel s.proc first = some p) :
    ∃ s', step kernel s (.pick c) = .next s' ∧ Dispatches s s' c p :=
  exists_dispatch_of_pages hctrl hchoose (hpages.live p (by rw [choose_runnable hchoose]; rfl))

/-- A process becomes `RUNNING` only by being dispatched. -/
theorem Step.dispatches_of_running (hinv : Inv s) (hstep : Step kernel s a s')
    (hbefore : (s.proc p).state ≠ .running) (hafter : (s'.proc p).state = .running) :
    ∃ c, Dispatches s s' c p := by
  have hnot : ∀ {c : C}, (s.cpu c).ctrl ≠ .run p := fun {c} hctrl => hbefore (hinv.run c p hctrl).2
  have hlife := hstep.life hinv p
  generalize hq : s'.proc p = q' at hlife hafter
  cases hlife with
  | dispatched c first haction hctrl hchoose =>
      subst haction
      refine ⟨c, hnot, ?_⟩
      cases hstep with
      | endPass c first' hctrl' hnone =>
          obtain rfl : first = first' := by simpa [hctrl] using hctrl'
          simp [hchoose] at hnone
      | dispatch c first' p' pgdir hctrl' hchoose' =>
          obtain rfl : first = first' := by simpa [hctrl] using hctrl'
          obtain rfl : p = p' := by simpa [hchoose] using hchoose'
          simp
      | round _ _ _ _ _ _ hentry => simpa using hentry.action_eq
  | same => exact absurd hafter hbefore
  | resumed c _ hctrl => exact absurd hctrl hnot
  | gaveUp c _ _ hctrl => exact absurd hctrl hnot
  | fault c _ hctrl => exact absurd hctrl hnot
  | committed c _ _ hctrl => exact absurd hctrl hnot
  | orphaned _ _ x _ _ _ hx =>
      rcases hx with rfl | ⟨-, rfl⟩
      · exact absurd hafter hbefore
      · simp [Proc.orphaned] at hafter
  | killed =>
      by_cases hsleeping : (s.proc p).state = .sleeping
      · simp [Proc.kill, hsleeping] at hafter
      · exact absurd (by simpa [Proc.kill, hsleeping] using hafter) hbefore
  | listed => exact absurd hafter hbefore
  | stacked => exact absurd hafter hbefore
  | inherited => exact absurd hafter hbefore
  | _ => simp [allocated, Proc.reaped] at hafter

/-! ## Processes that are ready -/

/-- `RUNNABLE`, or running. -/
def ProcState.Ready (state : ProcState) : Prop :=
  state = .runnable ∨ state = .running

/-- The thread on a CPU goes on, or calls `sched()`. -/
theorem Step.ctrl_of_run (hstep : Step kernel s a s') (hctrl : (s.cpu c).ctrl = .run p) :
    (s'.cpu c).ctrl = .run p ∨ (s'.cpu c).ctrl = .back p := by
  have hother : ∀ {cpu : Cpu} {c' : C},
      (∀ q, (s.cpu c').ctrl = .run q → cpu.ctrl = .run q ∨ cpu.ctrl = .back q) →
        (Function.update s.cpu c' cpu c).ctrl = .run p ∨
          (Function.update s.cpu c' cpu c).ctrl = .back p := by
    intro cpu c' hcpu
    rw [Function.update_apply]
    split
    · rename_i hc
      exact hcpu p (hc ▸ hctrl)
    · exact Or.inl hctrl
  cases hstep with
  | startPass c' hctrl' => exact hother (by simp [hctrl'])
  | endPass c' first hctrl' => exact hother (by simp [hctrl'])
  | dispatch c' first p' pgdir hctrl' => exact hother (by simp [hctrl'])
  | backFcfs c' p' _ hctrl' => exact hother (by simp [hctrl'])
  | backPriority c' p' _ hctrl' => exact hother (by simp [hctrl'])
  | yield c' p' hctrl' => exact hother (by simp [hctrl'])
  | sleep c' p' address hctrl' => exact hother (by simp [hctrl'])
  | zombie c' p' hctrl' => exact hother (by simp [hctrl'])
  | growproc c' p' pgdir => exact Or.inl ((State.reload_cpu c' pgdir c).1.trans hctrl)
  | execSwitch c' p' oldpgdir pgdir => exact Or.inl ((State.reload_cpu c' pgdir c).1.trans hctrl)
  | round a c' p' request scanning s' hentry hround =>
      have hctrl' := hentry.ctrl
      rw [← hentry.cpu] at hctrl hctrl' hother
      cases hround with
      | reaped => exact Or.inl hctrl
      | gaveUp => exact Or.inl hctrl
      | slept => exact hother (by simp [hctrl'])
  | _ => exact Or.inl hctrl

omit [DecidableEq C] in
/-- Only the hands that build a process give it a priority. -/
theorem Life.priority_eq {q' : Proc} (hinv : Inv s) (h : Life kernel s a p q')
    (hstate : (s.proc p).state ≠ .embryo) : q'.priority = (s.proc p).priority := by
  cases h with
  | inherited c p' pgdir priority _ _ hpc =>
      exact absurd (hinv.embryo p' p (by rw [hpc]; rfl)) hstate
  | exited _ x _ _ hx => rcases hx with rfl | ⟨-, rfl⟩ <;> rfl
  | orphaned _ _ x _ _ _ hx => rcases hx with rfl | ⟨-, rfl⟩ <;> rfl
  | _ => rfl

/-- A process that waits for a CPU goes on waiting unless it is dispatched. -/
theorem Step.ready_of_runnable (hinv : Inv s) (hstep : Step kernel s a s')
    (hstate : (s.proc p).state = .runnable) : (s'.proc p).state.Ready := by
  have hrun : ∀ {c : C}, (s.cpu c).ctrl ≠ .run p := by
    intro c hctrl
    simp [(hinv.run c p hctrl).2] at hstate
  have hchild : ∀ {q : Slot}, (s.thread q).pc.child ≠ some p := by
    intro q hq
    simp [hinv.embryo q p hq] at hstate
  have hlife := hstep.life hinv p
  generalize s'.proc p = q' at hlife
  cases hlife with
  | same => exact Or.inl hstate
  | woken => exact Or.inl rfl
  | dispatched => exact Or.inr rfl
  | orphaned _ _ x _ _ _ hx =>
      rcases hx with rfl | ⟨-, rfl⟩
      · exact Or.inl hstate
      · exact Or.inl rfl
  | killed => exact Or.inl (by simp [Proc.kill, hstate])
  | listed => exact Or.inl hstate
  | allocated _ _ _ hunused =>
      have hnot := (find?_slots_eq_some_iff.mp hunused).1
      simp [hstate] at hnot
  | stacked => exact Or.inl hstate
  | inherited => exact Or.inl hstate
  | started => exact Or.inl rfl
  | freed _ _ _ _ _ hpc => exact absurd hpc hchild
  | reaped _ _ _ _ _ _ hzombie => simp [hstate] at hzombie
  | resumed _ _ hctrl => exact absurd hctrl hrun
  | yielded _ _ hctrl => exact absurd hctrl hrun
  | slept _ _ _ hctrl => exact absurd hctrl hrun
  | waits _ hctrl => exact absurd hctrl hrun
  | gaveUp _ _ _ hctrl => exact absurd hctrl hrun
  | exited _ _ _ hctrl => exact absurd hctrl hrun
  | fault _ _ hctrl => exact absurd hctrl hrun
  | committed _ _ _ hctrl => exact absurd hctrl hrun

/-- A process that is ready stays so unless it sleeps or exits. -/
theorem Step.ready_of_ready (hinv : Inv s) (hstep : Step kernel s a s')
    (hready : (s.proc p).state.Ready) (hsleeping : (s'.proc p).state ≠ .sleeping)
    (hzombie : (s'.proc p).state ≠ .zombie) : (s'.proc p).state.Ready := by
  rcases hready with hrunnable | hrunning
  · exact hstep.ready_of_runnable hinv hrunnable
  · obtain ⟨c, hctrl⟩ := hinv.owner p hrunning
    have hinv' := hinv.step hstep
    rcases hstep.ctrl_of_run hctrl with hrun | hback
    · exact Or.inr (hinv'.run c p hrun).2
    · rcases (hinv'.back c p hback).2.2 with (hrunnable | hsleep) | hz
      · exact Or.inl hrunnable
      · exact absurd hsleep hsleeping
      · exact absurd hz hzombie

omit [DecidableEq C] in
/-- While the only CPU scans, nobody is running. -/
theorem Inv.runnable_of_scan {s : State Unit} (hinv : Inv s) {first : ℕ}
    (hctrl : (s.cpu ()).ctrl = .scan first) (hready : (s.proc p).state.Ready) :
    (s.proc p).state = .runnable := by
  rcases hready with hrunnable | hrunning
  · exact hrunnable
  · obtain ⟨c, hrun⟩ := hinv.owner p hrunning
    simp [hctrl] at hrun

/-! ## While a scheduler scans -/

/-- The table as the choice of the scheduler depends on it. -/
def SameQueue (s s' : State C) : Prop :=
  ∀ q, (s'.proc q).state = .runnable ∧ (s.proc q).state = .runnable ∧
      (s'.proc q).priority = (s.proc q).priority ∧ (s'.proc q).ctime = (s.proc q).ctime ∨
    (s'.proc q).state ≠ .runnable ∧ (s.proc q).state ≠ .runnable

omit [DecidableEq C] in
theorem SameQueue.of_eq (h : s'.proc = s.proc) : SameQueue s s' := by
  intro q
  rw [h]
  by_cases hq : (s.proc q).state = .runnable
  · exact Or.inl ⟨hq, hq, rfl, rfl⟩
  · exact Or.inr ⟨hq, hq⟩

omit [DecidableEq C] in
/-- A step that changes one slot, which is not in the queue. -/
theorem SameQueue.of_slot (hbefore : (s.proc p).state ≠ .runnable)
    (hafter : (s'.proc p).state ≠ .runnable) (hother : ∀ q, q ≠ p → s'.proc q = s.proc q) :
    SameQueue s s' := by
  intro q
  by_cases hq : q = p
  · subst hq
    exact Or.inr ⟨hafter, hbefore⟩
  · rw [hother q hq]
    by_cases hrunnable : (s.proc q).state = .runnable
    · exact Or.inl ⟨hrunnable, hrunnable, rfl, rfl⟩
    · exact Or.inr ⟨hrunnable, hrunnable⟩

/-- What the other CPUs leave of a scan in progress. -/
theorem Step.scanning (hinv : Inv s) (hstep : Step kernel s a s') {first : ℕ}
    (hctrl : (s.cpu c).ctrl = .scan first) (hne : a ≠ .pick c) :
    (s'.cpu c).ctrl = .scan first ∧ SameQueue s s' := by
  have hlock := (hinv.scan c first hctrl).2
  -- a step that needs the lock is a step of `c`, or cannot be taken
  have hfree : s.lock ≠ none := by simp [hlock]
  have hheld : ∀ {c'}, s.lock = some c' → c' = c := by
    intro c' h
    exact Option.some.inj (h.symm.trans hlock)
  have hchild : ∀ {p np}, (s.thread p).pc.child = some np → (s.proc np).state ≠ .runnable := by
    intro p np h
    simp [hinv.embryo p np h]
  have hrun : ∀ {c' p}, (s.cpu c').ctrl = .run p → (s.proc p).state ≠ .runnable := by
    intro c' p h
    simp [(hinv.run c' p h).2]
  cases hstep with
  | endPass c' _ _ _ hlock' =>
      obtain rfl := hheld hlock'
      exact absurd rfl hne
  | dispatch c' first' p pgdir hctrl' =>
      obtain rfl := hheld (hinv.scan c' first' hctrl').2
      exact absurd rfl hne
  | backFcfs c' p _ hctrl' hlock' =>
      obtain rfl := hheld hlock'
      simp [hctrl] at hctrl'
  | backPriority c' p _ hctrl' =>
      obtain rfl := hheld (hinv.back c' p hctrl').2.1
      simp [hctrl] at hctrl'
  | resume c' p hctrl' _ hlock' =>
      obtain rfl := hheld hlock'
      simp [hctrl] at hctrl'
  | resumeSleep c' p hctrl' _ _ hlock' =>
      obtain rfl := hheld hlock'
      simp [hctrl] at hctrl'
  | round a c' p request scanning s' hentry hround =>
      have hlock' : s.lock = some c' := by
        have hscanning : scanning.lock = some c' := by cases hround <;> assumption
        exact (hentry.free hscanning).resolve_left hfree
      obtain rfl := hheld hlock'
      have hctrl' := hentry.ctrl
      simp [hctrl] at hctrl'
  | tick => exact ⟨hctrl, .of_eq rfl⟩
  | kallocFail c' p np priority _ _ hpc =>
      exact ⟨hctrl, .of_slot (p := np) (hchild (by rw [hpc]; rfl)) (by simp) (by simp +contextual)⟩
  | kalloc c' p np priority kstack _ _ hpc =>
      have hnp : (s.proc np).state ≠ .runnable := hchild (p := p) (by rw [hpc]; rfl)
      exact ⟨hctrl, .of_slot (p := np) hnp (by simpa using hnp) (by simp +contextual)⟩
  | copyuvmFail c' p np priority kstack _ _ hpc =>
      exact ⟨hctrl, .of_slot (p := np) (hchild (by rw [hpc]; rfl)) (by simp) (by simp +contextual)⟩
  | copyuvm c' p np priority pgdir _ _ hpc =>
      have hnp : (s.proc np).state ≠ .runnable := hchild (p := p) (by rw [hpc]; rfl)
      exact ⟨hctrl, .of_slot (p := np) hnp (by simpa [inherit] using hnp) (by simp +contextual)⟩
  | exit => exact ⟨hctrl, .of_eq rfl⟩
  | exec => exact ⟨hctrl, .of_eq rfl⟩
  | execBad => exact ⟨hctrl, .of_eq rfl⟩
  | execFree => exact ⟨hctrl, .of_eq rfl⟩
  | execCommit c' p page hctrl' =>
      exact ⟨hctrl, .of_slot (p := p) (hrun hctrl') (by simpa using hrun hctrl')
        (by simp +contextual)⟩
  | fault c' p hctrl' =>
      exact ⟨hctrl, .of_slot (p := p) (hrun hctrl') (by simpa using hrun hctrl')
        (by simp +contextual)⟩
  | execSwitch c' p oldpgdir pgdir =>
      exact ⟨(State.reload_cpu c' pgdir c).1.trans hctrl, .of_eq rfl⟩
  | growproc c' p pgdir => exact ⟨(State.reload_cpu c' pgdir c).1.trans hctrl, .of_eq rfl⟩
  | _ => exact absurd ‹s.lock = none› hfree

end Xv6
