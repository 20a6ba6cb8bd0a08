import Xv6.Proc.Pages
import Xv6.Proc.Pids

/-!
# Parents and children

`TreeInv` says who is whose parent: nobody is the parent of an unused slot, the
thread that builds a child becomes its parent before the child can run, and the
parent of every process but init is alive, because `exit` hands the children on
to init, which never exits.
-/

namespace Xv6

open Transition

variable {C : Type} {kernel : Kernel} {s s' : State C} {a : Action C} {c : C} {p q n : Slot}
variable {pgdir : Addr}

/-! ## The tree -/

/-- A process that `fork` has finished and that has not exited. -/
def ProcState.alive : ProcState → Bool
  | .sleeping | .runnable | .running => true
  | _ => false

/-- The process exits by this step. -/
def Exits (s s' : State C) (p : Slot) : Prop :=
  (s.proc p).state ≠ .zombie ∧ (s'.proc p).state = .zombie

instance (s s' : State C) : DecidablePred (Exits s s') :=
  fun _ => inferInstanceAs (Decidable (_ ∧ _))

structure TreeInv (s : State C) : Prop where
  unused : ∀ n, (s.proc n).state = .unused → (s.proc n).parent = none
  embryo : ∀ n q, (s.proc n).state = .embryo →
    ((s.proc n).parent = some q ↔ (s.thread q).pc.copied = some n)
  init : (s.proc initproc).state.alive ∧ (s.thread initproc).pc ≠ .exit
  irrefl : ∀ n, n ≠ initproc → (s.proc n).parent ≠ some n
  parent : ∀ n, n ≠ initproc → (s.proc n).state.live →
    ∃ p, (s.proc n).parent = some p ∧ (s.proc p).state.alive

/-! ## What a step does to the tree -/

namespace Life

/-- A process comes to life when the thread that builds it finishes `fork`. -/
theorem started_of_live {q' : Proc} (hinv : Inv s) (h : Life kernel s a n q')
    (hbefore : ¬ (s.proc n).state.live) (hlive : q'.state.live) :
    ∃ c p, a = .runnable c ∧ (s.cpu c).ctrl = .run p ∧ (s.thread p).pc = .forkRunnable n ∧
      q'.parent = (s.proc n).parent := by
  have hrun : ∀ {c : C}, (s.cpu c).ctrl ≠ .run n := by
    intro c hctrl
    simp [(hinv.run c n hctrl).2, ProcState.live] at hbefore
  cases h with
  | same | gaveUp | fault | listed | stacked | inherited | committed | resumed =>
      exact absurd hlive hbefore
  | woken hsleeping => simp [hsleeping, ProcState.live] at hbefore
  | dispatched _ _ _ _ hchoose => simp [choose_runnable hchoose, ProcState.live] at hbefore
  | yielded _ _ hctrl => exact absurd hctrl hrun
  | slept _ _ _ hctrl => exact absurd hctrl hrun
  | waits _ hctrl => exact absurd hctrl hrun
  | exited _ _ _ hctrl => exact absurd hctrl hrun
  | orphaned _ _ x _ _ _ hx =>
      rcases hx with rfl | ⟨hsleeping, rfl⟩
      · exact absurd hlive hbefore
      · simp [hsleeping, ProcState.live] at hbefore
  | killed =>
      by_cases hsleeping : (s.proc n).state = .sleeping
      · simp [hsleeping, ProcState.live] at hbefore
      · exact absurd (by simpa [Proc.kill, hsleeping] using hlive) hbefore
  | started c p haction hctrl hpc => exact ⟨c, p, haction, hctrl, hpc, rfl⟩
  | allocated | freed | reaped => simp [Xv6.allocated, Proc.reaped, ProcState.live] at hlive

/-- A process that is alive stays so, or exits. -/
theorem alive_or_zombie {q' : Proc} (hinv : Inv s) (h : Life kernel s a n q')
    (halive : (s.proc n).state.alive) : q'.state.alive ∨ q'.state = .zombie := by
  have hnot : (s.proc n).state ≠ .unused ∧ (s.proc n).state ≠ .embryo ∧
      (s.proc n).state ≠ .zombie := by
    refine ⟨?_, ?_, ?_⟩ <;> intro hstate <;> simp [hstate, ProcState.alive] at halive
  cases h with
  | orphaned _ _ x _ _ _ hx =>
      rcases hx with rfl | ⟨-, rfl⟩
      · exact Or.inl halive
      · exact Or.inl rfl
  | exited => exact Or.inr rfl
  | killed =>
      by_cases hsleeping : (s.proc n).state = .sleeping
      · simp [Proc.kill, hsleeping, ProcState.alive]
      · simp [Proc.kill, hsleeping, halive]
  | allocated _ _ _ hunused => exact absurd (find?_slots_eq_some_iff.mp hunused).1 hnot.1
  | freed _ p _ _ _ hchild => exact absurd (hinv.embryo p n hchild) hnot.2.1
  | reaped _ _ _ _ _ _ hzombie => exact absurd hzombie hnot.2.2
  | same | resumed | gaveUp | fault | listed | stacked | inherited | committed =>
      exact Or.inl halive
  | _ => exact Or.inl rfl

/-- Only the process itself exits. -/
theorem zombie_of_exits {q' : Proc} (h : Life kernel s a n q')
    (hbefore : (s.proc n).state ≠ .zombie) (hzombie : q'.state = .zombie) :
    ∃ c, a = .zombie c ∧ (s.cpu c).ctrl = .run n := by
  cases h with
  | exited c x haction hctrl => exact ⟨c, haction, hctrl⟩
  | orphaned _ _ x _ _ _ hx =>
      rcases hx with rfl | ⟨-, rfl⟩
      · exact absurd hzombie hbefore
      · simp [Proc.orphaned] at hzombie
  | killed =>
      by_cases hsleeping : (s.proc n).state = .sleeping
      · simp [Proc.kill, hsleeping] at hzombie
      · exact absurd (by simpa [Proc.kill, hsleeping] using hzombie) hbefore
  | same | resumed | gaveUp | fault | listed | stacked | inherited | committed =>
      exact absurd hzombie hbefore
  | _ => simp [Xv6.allocated, Proc.reaped] at hzombie

/-- Only a round of `wait` or `procstat` frees the slot of a zombie. -/
theorem reaped_of_zombie {q' : Proc} (hinv : Inv s) (h : Life kernel s a n q')
    (hzombie : (s.proc n).state = .zombie) (hunused : q'.state = .unused) :
    ∃ c p, ∃ request : Pc, request.waiting ∧
      (request.call c a ∨ a = .resume c ∧ (s.thread p).pc = request) ∧
        (s.cpu c).ctrl = .run p := by
  cases h with
  | same | resumed | gaveUp | fault | listed | stacked | inherited | committed =>
      exact absurd (hzombie.symm.trans hunused) (by simp)
  | orphaned _ _ x _ _ _ hx =>
      rcases hx with rfl | ⟨-, rfl⟩ <;> simp [Proc.orphaned, hzombie] at hunused
  | killed => simp [Proc.kill, hzombie] at hunused
  | freed _ p _ _ _ hchild => simp [hinv.embryo p n hchild] at hzombie
  | reaped c p request hwaiting haction hctrl => exact ⟨c, p, request, hwaiting, haction, hctrl⟩
  | _ => simp [Xv6.allocated] at hunused

/-- Where a child under construction comes from. -/
theorem embryo_or_unused {q' : Proc} (hinv : Inv s) (h : Life kernel s a n q')
    (hembryo : q'.state = .embryo) :
    (s.proc n).state = .embryo ∨
      (s.proc n).state = .unused ∧ (∃ c priority, a = .fork c priority) ∧
        q'.parent = (s.proc n).parent := by
  have hrun : ∀ {c : C}, (s.cpu c).ctrl = .run n → (s.proc n).state = .running :=
    fun {c} hctrl => (hinv.run c n hctrl).2
  cases h with
  | same | listed | stacked | inherited => exact Or.inl hembryo
  | resumed _ _ hctrl => simp [hrun hctrl] at hembryo
  | gaveUp _ _ _ hctrl => simp [hrun hctrl] at hembryo
  | fault _ _ hctrl => simp [hrun hctrl] at hembryo
  | committed _ _ _ hctrl => simp [hrun hctrl] at hembryo
  | orphaned _ _ x _ _ _ hx =>
      rcases hx with rfl | ⟨-, rfl⟩
      · exact Or.inl hembryo
      · simp [Proc.orphaned] at hembryo
  | killed =>
      by_cases hsleeping : (s.proc n).state = .sleeping
      · simp [Proc.kill, hsleeping] at hembryo
      · exact Or.inl (by simpa [Proc.kill, hsleeping] using hembryo)
  | allocated c priority haction hunused =>
      exact Or.inr ⟨(find?_slots_eq_some_iff.mp hunused).1, ⟨c, priority, haction⟩, rfl⟩
  | _ => simp [Proc.reaped] at hembryo

/-- Who writes the `parent` field: `exit`, the end of `fork`, and the reapers. -/
theorem parent_eq {q' : Proc} (h : Life kernel s a n q') :
    q'.parent = (s.proc n).parent ∨ (∃ c, a = .zombie c) ∨
      (∃ c p pgdir priority, a = .copyuvm c (some pgdir) ∧ (s.cpu c).ctrl = .run p ∧
        (s.thread p).pc = .forkCopyuvm n priority) ∨
        (s.proc n).state = .zombie ∧ q'.state = .unused ∧ q'.parent = none := by
  cases h with
  | exited c x haction => exact Or.inr (Or.inl ⟨c, haction⟩)
  | orphaned c cur x haction => exact Or.inr (Or.inl ⟨c, haction⟩)
  | inherited c p pgdir priority haction hctrl hpc =>
      exact Or.inr (Or.inr (Or.inl ⟨c, p, pgdir, priority, haction, hctrl, hpc⟩))
  | reaped _ _ _ _ _ _ hzombie => exact Or.inr (Or.inr (Or.inr ⟨hzombie, rfl, rfl⟩))
  | _ => exact Or.inl rfl

end Life

theorem Proc.Wakes.parent_eq {q q' : Proc} (h : q.Wakes q') : q'.parent = q.parent := by
  rcases h with rfl | ⟨-, rfl⟩ <;> rfl

theorem exitTable_parent (cur : Slot) (ticks : BitVec 32) (table : Ptable) (n : Slot) :
    (exitTable cur ticks table n).parent =
      if (table n).parent = some cur then some initproc else (table n).parent := by
  by_cases hn : n = cur
  · subst hn
    obtain ⟨x, hx, hself⟩ := exitTable_self n ticks table
    rw [hself]
    simp only [Proc.orphaned, hx.parent_eq]
  · obtain ⟨x, hx, hother⟩ := exitTable_of_ne ticks table hn
    rw [hother]
    simp only [Proc.orphaned, hx.parent_eq]

section Steps

variable [DecidableEq C]

theorem Step.proc_of_zombie (hstep : Step kernel s (.zombie c) s')
    (hctrl : (s.cpu c).ctrl = .run p) : s'.proc = exitTable p s.ticks s.proc := by
  cases hstep with
  | round _ _ _ _ _ _ hentry => simpa using hentry.action_eq
  | zombie _ p' hctrl' =>
      obtain rfl : p = p' := by simpa [hctrl] using hctrl'
      rfl

/-- `exit` passes on the children of the process that exits, and no others. -/
theorem Step.parent_of_zombie (hstep : Step kernel s (.zombie c) s')
    (hctrl : (s.cpu c).ctrl = .run p) (n : Slot) :
    (s'.proc n).parent =
      if (s.proc n).parent = some p then some initproc else (s.proc n).parent := by
  rw [hstep.proc_of_zombie hctrl, exitTable_parent]

theorem Step.exits_of_zombie (hinv : Inv s) (hstep : Step kernel s (.zombie c) s') :
    ∃ p, (s.cpu c).ctrl = .run p ∧ (s.thread p).pc = .exit ∧ Exits s s' p := by
  cases hstep with
  | round _ _ _ _ _ _ hentry => simpa using hentry.action_eq
  | zombie _ p hctrl _ hpc =>
      refine ⟨p, hctrl, hpc, by simp [(hinv.run c p hctrl).2], ?_⟩
      obtain ⟨x, -, hself⟩ := exitTable_self p s.ticks s.proc
      simp [hself]

theorem Step.zombie_of_exits (hinv : Inv s) (hstep : Step kernel s a s') (h : Exits s s' p) :
    ∃ c, a = .zombie c ∧ (s.cpu c).ctrl = .run p ∧ (s.thread p).pc = .exit := by
  obtain ⟨c, rfl, hctrl⟩ := (hstep.life hinv p).zombie_of_exits h.1 h.2
  obtain ⟨p', hctrl', hpc, -⟩ := hstep.exits_of_zombie hinv
  obtain rfl : p = p' := by simpa [hctrl] using hctrl'
  exact ⟨c, rfl, hctrl, hpc⟩

/-- `exit` passes a child on when its parent exits, and nobody else takes it. -/
theorem Step.parent_of_live (hinv : Inv s) (hstep : Step kernel s a s')
    (hlive : (s.proc n).state.live) (hlive' : (s'.proc n).state.live) :
    (s'.proc n).parent =
      (s.proc n).parent.map fun p => if Exits s s' p then initproc else p := by
  by_cases hexits : ∃ p, Exits s s' p
  · obtain ⟨p, hp⟩ := hexits
    obtain ⟨c, rfl, hctrl, -⟩ := hstep.zombie_of_exits hinv hp
    rw [hstep.parent_of_zombie hctrl]
    cases hparent : (s.proc n).parent with
    | none => simp
    | some q =>
        by_cases hq : q = p
        · simp [hq, hp]
        · have hnot : ¬ Exits s s' q := by
            intro hexits
            obtain ⟨c', haction, hctrl', -⟩ := hstep.zombie_of_exits hinv hexits
            obtain rfl : c = c' := by simpa using haction
            exact hq (by simpa [hctrl] using hctrl'.symm)
          simp [hq, hnot]
  · have hnone : ∀ p, ¬ Exits s s' p := fun p hp => hexits ⟨p, hp⟩
    simp only [hnone, if_false, Option.map_id']
    rcases (hstep.life hinv n).parent_eq with hsame | ⟨c, rfl⟩ | ⟨c, q, _, _, -, -, hpc⟩ |
      ⟨-, hn, -⟩
    · exact hsame
    · obtain ⟨cur, -, -, hcur⟩ := hstep.exits_of_zombie hinv
      exact absurd hcur (hnone cur)
    · simp [hinv.embryo q n (by rw [hpc]; rfl), ProcState.live] at hlive
    · simp [hn, ProcState.live] at hlive'

/-- Init never gets as far as `exit`. -/
theorem Step.pc_ne_exit (hstep : Step kernel s a s')
    (h : (s.thread initproc).pc ≠ .exit) : (s'.thread initproc).pc ≠ .exit := by
  have hof : ∀ (p : Slot) {t : Thread}, s'.thread = Function.update s.thread p t →
      (initproc = p → t.pc ≠ .exit) → (s'.thread initproc).pc ≠ .exit := by
    intro p t hthread hself
    by_cases hp : initproc = p
    · subst hp
      rw [hthread, Function.update_self]
      exact hself rfl
    · rwa [hthread, Function.update_of_ne hp]
  cases hstep with
  | resume c p | resumeSleep c p | yield c p | sleep c p | zombie c p =>
      exact hof p rfl fun hp => hp ▸ h
  | exit c p _ _ _ hinit => exact hof p rfl fun hp => absurd hp.symm hinit
  | kill c p | forkFull c p | ps c p | exec c p | fork c p | kallocFail c p | copyuvmFail c p
  | copyuvm c p | runnable c p | execBad c p | execCommit c p | execSwitch c p | execFree c p =>
      exact hof p rfl fun _ => by simp
  | round a c p request scanning s' hentry hround =>
      by_cases hp : initproc = p
      · subst hp
        have hrequest : request ≠ .exit := by
          rintro rfl
          exact hentry.waiting
        cases hround with
        | reaped => cases request <;> simp [answered]
        | gaveUp => simp
        | slept => simpa [hentry.pc_eq] using hrequest
      · have hother := hentry.thread_of_ne hp
        cases hround <;> simpa [hp, hother] using h
  | kalloc c p np priority kstack =>
      by_cases hp : initproc = p
      · subst hp
        simp
      · by_cases hnp : initproc = np
        · subst hnp
          simp [hp]
        · simpa [hp, hnp] using h
  | _ => exact h

/-- The end of `fork` in the thread of `q`: its child gets its parent, and then
becomes runnable. -/
inductive Forking (s : State C) (a : Action C) (s' : State C) (q : Slot) : Prop
  | copies (c : C) (np : Slot) (pgdir : Addr) (priority : Option ℤ)
      (haction : a = .copyuvm c (some pgdir)) (hctrl : (s.cpu c).ctrl = .run q)
      (hpc : (s.thread q).pc = .forkCopyuvm np priority)
      (hafter : (s'.thread q).pc = .forkRunnable np) (hparent : (s'.proc np).parent = some q)
  | starts (c : C) (np : Slot) (haction : a = .runnable c) (hctrl : (s.cpu c).ctrl = .run q)
      (hpc : (s.thread q).pc = .forkRunnable np) (hafter : (s'.thread q).pc = .user)
      (hstate : (s'.proc np).state = .runnable)

/-- A thread has a child that is about to run, unless it is at the end of `fork`. -/
theorem Step.copied_eq (hinv : Inv s) (hstep : Step kernel s a s') (q : Slot) :
    (s'.thread q).pc.copied = (s.thread q).pc.copied ∨ Forking s a s' q := by
  have hof : ∀ (p : Slot) {t : Thread}, s'.thread = Function.update s.thread p t →
      (q = p → t.pc.copied = (s.thread p).pc.copied ∨ Forking s a s' q) →
        (s'.thread q).pc.copied = (s.thread q).pc.copied ∨ Forking s a s' q := by
    intro p t hthread hself
    by_cases hq : q = p
    · subst hq
      rw [hthread, Function.update_self]
      exact hself rfl
    · exact Or.inl (by rw [hthread, Function.update_of_ne hq])
  cases hstep with
  | resume c p | resumeSleep c p | yield c p | sleep c p | zombie c p =>
      exact hof p rfl fun _ => Or.inl rfl
  | kill c p pid _ _ hpc | forkFull c p _ _ _ _ hpc | exit c p _ _ hpc | ps c p _ _ hpc
  | exec c p _ _ _ hpc | fork c p _ _ _ _ _ hpc =>
      exact hof p rfl fun _ => Or.inl (by simp [hpc, Pc.copied])
  | kallocFail c p _ _ _ _ hpc | copyuvmFail c p _ _ _ _ _ hpc | execBad c p _ _ _ hpc
  | execCommit c p _ _ _ hpc | execSwitch c p _ _ _ _ hpc | execFree c p _ _ _ hpc =>
      exact hof p rfl fun _ => Or.inl (by simp [hpc, Pc.copied])
  | round a c p request scanning s' hentry hround =>
      have hnone : ∀ {pc : Pc}, pc.waiting → pc.copied = none := by
        intro pc hwaiting
        cases pc <;> simp [Pc.waiting, Pc.copied] at *
      refine Or.inl ?_
      by_cases hq : q = p
      · subst hq
        have hbefore : (s.thread q).pc.copied = none := by
          cases hentry with
          | call _ _ _ _ hpc => simp [hpc, Pc.copied]
          | woken _ _ hpc hwaiting => exact hnone (hpc ▸ hwaiting)
        rw [hbefore]
        cases hround with
        | reaped => cases request <;> simp [answered, Pc.copied]
        | gaveUp => simp [Pc.copied]
        | slept => simpa [hentry.pc_eq] using hnone hentry.waiting
      · have hother := hentry.thread_of_ne hq
        cases hround <;> simp [hq, hother]
  | kalloc c p np priority kstack hctrl hresume hpc =>
      refine Or.inl ?_
      by_cases hq : q = p
      · subst hq
        simp [hpc, Pc.copied]
      · by_cases hqnp : q = np
        · -- the thread of a child under construction stands where its slot was left
          subst hqnp
          have hembryo := hinv.embryo p q (by rw [hpc]; rfl)
          rcases hinv.dead q (Or.inr (Or.inl hembryo)) with hidle | hidle <;>
            simp [hq, hidle, Pc.copied]
        · simp [hq, hqnp]
  | copyuvm c p np priority pgdir hctrl hresume hpc hfresh =>
      refine hof p rfl fun hq => Or.inr ?_
      subst hq
      exact .copies c np pgdir priority rfl hctrl hpc (by simp) (by simp [inherit])
  | runnable c p np hctrl hresume hpc hlock =>
      refine hof p rfl fun hq => Or.inr ?_
      subst hq
      exact .starts c np rfl hctrl hpc (by simp) (by simp)
  | _ => exact Or.inl rfl

theorem Step.inherited (hstep : Step kernel s (.copyuvm c (some pgdir)) s')
    (hctrl : (s.cpu c).ctrl = .run p) {priority : Option ℤ}
    (hpc : (s.thread p).pc = .forkCopyuvm n priority) :
    (s'.thread p).pc = .forkRunnable n ∧ (s'.proc n).parent = some p := by
  cases hstep with
  | round _ _ _ _ _ _ hentry => simpa using hentry.action_eq
  | copyuvm _ p' np _ _ hctrl' _ hpc' =>
      obtain rfl : p = p' := by simpa [hctrl] using hctrl'
      obtain ⟨rfl, -⟩ : n = np ∧ _ := by simpa [hpc] using hpc'
      simp [inherit]

/-! ## The tree after a step -/

namespace TreeInv

theorem unused_step (h : TreeInv s) (hinv : Inv s) (hstep : Step kernel s a s')
    (hunused : (s'.proc n).state = .unused) : (s'.proc n).parent = none := by
  have hlife := hstep.life hinv n
  generalize s'.proc n = q' at hlife hunused
  cases hlife with
  | same | resumed | gaveUp | fault | listed | stacked | committed => exact h.unused n hunused
  | inherited _ p _ _ _ _ hpc =>
      have hembryo := hinv.embryo p n (by rw [hpc]; rfl)
      simp [inherit, hembryo] at hunused
  | orphaned _ _ x _ _ _ hx =>
      rcases hx with rfl | ⟨-, rfl⟩
      · simp [Proc.orphaned, h.unused n hunused]
      · simp [Proc.orphaned] at hunused
  | killed =>
      by_cases hsleeping : (s.proc n).state = .sleeping
      · simp [Proc.kill, hsleeping] at hunused
      · exact h.unused n (by simpa [Proc.kill, hsleeping] using hunused)
  | freed c p pgdir haction hctrl hchild =>
      -- `fork` fails before the child gets its parent
      cases hparent : (s.proc n).parent with
      | none => rfl
      | some q =>
          have hcopied := (h.embryo n q (hinv.embryo p n hchild)).mp hparent
          obtain rfl : q = p := hinv.builder q p n (Pc.child_of_copied hcopied).1 hchild
          have hpc : (s.thread q).pc = .forkRunnable n := by
            cases hpc : (s.thread q).pc <;> simp_all [Pc.copied]
          rcases haction with rfl | rfl
          · cases hstep with
            | round _ _ _ _ _ _ hentry => simpa using hentry.action_eq
            | kallocFail _ p' _ _ hctrl' _ hpc' =>
                obtain rfl : q = p' := by simpa [hctrl] using hctrl'
                simp [hpc] at hpc'
          · cases hstep with
            | round _ _ _ _ _ _ hentry => simpa using hentry.action_eq
            | copyuvmFail _ p' _ _ _ hctrl' _ hpc' =>
                obtain rfl : q = p' := by simpa [hctrl] using hctrl'
                simp [hpc] at hpc'
  | reaped => rfl
  | _ => simp [allocated] at hunused

theorem embryo_step (h : TreeInv s) (hinv : Inv s) (hstep : Step kernel s a s')
    (hembryo : (s'.proc n).state = .embryo) :
    (s'.proc n).parent = some q ↔ (s'.thread q).pc.copied = some n := by
  rcases (hstep.life hinv n).embryo_or_unused hinv hembryo with
    hbefore | ⟨hunused, ⟨c, priority, rfl⟩, hparent⟩
  swap
  · -- nobody has come to the end of building a child that is allocated by this step
    rw [hparent, h.unused n hunused]
    refine iff_of_false (by simp) fun hcopied => ?_
    rcases hstep.copied_eq hinv q with hsame | hforking
    · have hchild := hinv.embryo q n (Pc.child_of_copied (hsame ▸ hcopied)).1
      simp [hunused] at hchild
    · cases hforking with
      | copies _ _ _ _ haction => simp at haction
      | starts _ _ haction => simp at haction
  rcases (hstep.life hinv n).parent_eq with hparent | ⟨c, rfl⟩ |
    ⟨c, p, pgdir, priority, rfl, hctrl, hpc⟩ | ⟨hzombie, -⟩
  · rw [hparent, h.embryo n q hbefore]
    rcases hstep.copied_eq hinv q with hsame | hforking
    · rw [hsame]
    · cases hforking with
      | copies c np pgdir priority haction hctrl hpc hafter hparent' =>
          have hne : np ≠ n := by
            rintro rfl
            rw [hparent, h.embryo np q hbefore, hpc] at hparent'
            simp [Pc.copied] at hparent'
          simp [hpc, hafter, Pc.copied, hne]
      | starts c np haction hctrl hpc hafter hstate =>
          have hne : np ≠ n := by
            rintro rfl
            simp [hembryo] at hstate
          simp [hpc, hafter, Pc.copied, hne]
  · obtain ⟨cur, hctrl, hpc, -⟩ := hstep.exits_of_zombie hinv
    have hnot : (s.proc n).parent ≠ some cur := by
      rw [ne_eq, h.embryo n cur hbefore, hpc]
      simp [Pc.copied]
    rw [hstep.parent_of_zombie hctrl, if_neg hnot, h.embryo n q hbefore]
    rcases hstep.copied_eq hinv q with hsame | hforking
    · rw [hsame]
    · cases hforking with
      | copies _ _ _ _ haction => simp at haction
      | starts _ _ haction => simp at haction
  · obtain ⟨hafter, hparent⟩ := hstep.inherited hctrl hpc
    rw [hparent]
    by_cases hq : q = p
    · subst hq
      simp [hafter, Pc.copied]
    · refine iff_of_false (by simpa using Ne.symm hq) fun hcopied => ?_
      rcases hstep.copied_eq hinv q with hsame | hforking
      · exact hq (hinv.builder q p n (Pc.child_of_copied (hsame ▸ hcopied)).1 (by rw [hpc]; rfl))
      · cases hforking with
        | copies c' _ _ _ haction hctrl' =>
            obtain ⟨rfl, -⟩ : c = c' ∧ _ := by simpa using haction
            exact hq (by simpa [hctrl] using hctrl'.symm)
        | starts _ _ haction => simp at haction
  · simp [hbefore] at hzombie

theorem init_step (h : TreeInv s) (hinv : Inv s) (hstep : Step kernel s a s') :
    (s'.proc initproc).state.alive ∧ (s'.thread initproc).pc ≠ .exit := by
  refine ⟨?_, hstep.pc_ne_exit h.init.2⟩
  rcases (hstep.life hinv initproc).alive_or_zombie hinv h.init.1 with halive | hzombie
  · exact halive
  · have hbefore : (s.proc initproc).state ≠ .zombie := by
      intro hbefore
      simpa [hbefore, ProcState.alive] using h.init.1
    obtain ⟨c, -, -, hpc⟩ := hstep.zombie_of_exits hinv ⟨hbefore, hzombie⟩
    exact absurd hpc h.init.2

theorem irrefl_step (h : TreeInv s) (hinv : Inv s) (hstep : Step kernel s a s')
    (hn : n ≠ initproc) : (s'.proc n).parent ≠ some n := by
  rcases (hstep.life hinv n).parent_eq with hsame | ⟨c, rfl⟩ | ⟨c, p, _, _, rfl, hctrl, hpc⟩ |
    ⟨-, -, hnone⟩
  · rw [hsame]
    exact h.irrefl n hn
  · obtain ⟨cur, hctrl, -⟩ := hstep.exits_of_zombie hinv
    rw [hstep.parent_of_zombie hctrl]
    split
    · simpa using hn.symm
    · exact h.irrefl n hn
  · -- a thread does not build its own slot
    rw [(hstep.inherited hctrl hpc).2]
    have hne := hinv.ne_child (hinv.run c p hctrl).2 (by rw [hpc]; rfl)
    simpa using hne
  · simp [hnone]

/-- A parent stays alive, or its children have been passed on. -/
theorem alive_step (h : TreeInv s) (hinv : Inv s) (hstep : Step kernel s a s')
    (halive : (s.proc p).state.alive) :
    (s'.proc (if Exits s s' p then initproc else p)).state.alive := by
  split
  · exact (h.init_step hinv hstep).1
  · rename_i hexits
    refine ((hstep.life hinv p).alive_or_zombie hinv halive).resolve_right fun hzombie => ?_
    refine hexits ⟨fun hbefore => ?_, hzombie⟩
    simp [hbefore, ProcState.alive] at halive

theorem step (h : TreeInv s) (hinv : Inv s) (hstep : Step kernel s a s') : TreeInv s' where
  unused _ := h.unused_step hinv hstep
  embryo _ _ := h.embryo_step hinv hstep
  init := h.init_step hinv hstep
  irrefl _ := h.irrefl_step hinv hstep
  parent n hn hlive := by
    by_cases hbefore : (s.proc n).state.live
    · obtain ⟨p, hparent, halive⟩ := h.parent n hn hbefore
      refine ⟨_, ?_, h.alive_step hinv hstep halive⟩
      rw [hstep.parent_of_live hinv hbefore hlive, hparent, Option.map_some]
    · obtain ⟨c, p, rfl, hctrl, hpc, hparent⟩ :=
        (hstep.life hinv n).started_of_live hinv hbefore hlive
      have hembryo := hinv.embryo p n (by rw [hpc]; rfl)
      have hrunning := (hinv.run c p hctrl).2
      refine ⟨p, ?_, ?_⟩
      · rw [hparent, h.embryo n p hembryo, hpc, Pc.copied]
      · rcases (hstep.life hinv p).alive_or_zombie hinv (by simp [hrunning, ProcState.alive]) with
          halive | hzombie
        · exact halive
        · obtain ⟨c', haction, -⟩ := hstep.zombie_of_exits hinv ⟨by simp [hrunning], hzombie⟩
          simp at haction

omit [DecidableEq C] in
theorem boot (kstack pgdir : Addr) : TreeInv (boot C kstack pgdir) where
  unused n _ := by
    by_cases hn : n = initproc
    · subst hn
      simp [Xv6.boot, allocated]
    · simp [Xv6.boot, hn]
  embryo n q hembryo := by
    by_cases hn : n = initproc
    · subst hn
      simp [Xv6.boot] at hembryo
    · simp [Xv6.boot, hn] at hembryo
  init := by simp [Xv6.boot, ProcState.alive]
  irrefl n hn := by simp [Xv6.boot, hn]
  parent n hn hlive := by
    simp [Xv6.boot, hn, ProcState.live] at hlive

end TreeInv

end Steps

end Xv6
