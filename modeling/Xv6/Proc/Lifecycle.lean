import Xv6.Proc.Fork

/-!
# The life of a slot and of its thread

`Life` lists what one step can do to one slot of the process table, whoever takes
the step, and `Advance` where it can leave the thread of a slot.  A property that
every entry of the list keeps is kept by every step.
-/

namespace Xv6

open Transition

variable {C : Type} {kernel : Kernel} {s s' : State C} {a : Action C} {c : C} {p n : Slot}

/-- What slot `n` may contain after a step by action `a`. -/
inductive Life (kernel : Kernel) (s : State C) (a : Action C) (n : Slot) : Proc → Prop
  | same : Life kernel s a n (s.proc n)
  | woken (hstate : (s.proc n).state = .sleeping) :
      Life kernel s a n { s.proc n with state := .runnable }
  | dispatched (c : C) (first : ℕ) (haction : a = .pick c) (hctrl : (s.cpu c).ctrl = .scan first)
      (hchoose : State.choose kernel s.proc first = some n) :
      Life kernel s a n { s.proc n with state := .running }
  | resumed (c : C) (haction : a = .resume c) (hctrl : (s.cpu c).ctrl = .run n) :
      Life kernel s a n { s.proc n with chan := none }
  | yielded (c : C) (haction : a = .yield c) (hctrl : (s.cpu c).ctrl = .run n) :
      Life kernel s a n { s.proc n with state := .runnable }
  | slept (c : C) (address : ℕ) (haction : a = .sleep c address)
      (hctrl : (s.cpu c).ctrl = .run n) :
      Life kernel s a n { s.proc n with chan := some (.other address), state := .sleeping }
  | waits (c : C) (hctrl : (s.cpu c).ctrl = .run n) :
      Life kernel s a n { s.proc n with
        etime := s.ticks
        chan := some (.proc n)
        state := .sleeping }
  | gaveUp (c : C) (chan : Option Chan) (hchan : chan = (s.proc n).chan ∨ chan = none)
      (hctrl : (s.cpu c).ctrl = .run n) :
      Life kernel s a n { s.proc n with etime := s.ticks, chan := chan }
  | exited (c : C) (x : Proc) (haction : a = .zombie c) (hctrl : (s.cpu c).ctrl = .run n)
      (hx : (s.proc n).Wakes x) :
      Life kernel s a n { x.orphaned n with etime := s.ticks, state := .zombie }
  | orphaned (c : C) (cur : Slot) (x : Proc) (haction : a = .zombie c)
      (hctrl : (s.cpu c).ctrl = .run cur) (hne : n ≠ cur) (hx : (s.proc n).Wakes x) :
      Life kernel s a n (x.orphaned cur)
  | killed (c : C) (pid : ℤ) (haction : a = .kill c pid)
      (hfinds : killFinds pid s.proc = some n) :
      Life kernel s a n (s.proc n).kill
  | fault (c : C) (haction : a = .fault c) (hctrl : (s.cpu c).ctrl = .run n) :
      Life kernel s a n { s.proc n with killed := true }
  | listed (c : C) (haction : a = .ps c) (hstate : (s.proc n).state ≠ .unused) :
      Life kernel s a n { s.proc n with etime := s.ticks }
  | allocated (c : C) (priority : Option ℤ) (haction : a = .fork c priority)
      (hunused : firstUnused s.proc = some n) :
      Life kernel s a n (allocated (toInt s.nextpid) s.ticks (s.proc n))
  | stacked (c : C) (p : Slot) (kstack : Addr) (haction : a = .kalloc c (some kstack))
      (hctrl : (s.cpu c).ctrl = .run p) (hchild : (s.thread p).pc.child = some n) :
      Life kernel s a n { s.proc n with kstack := some kstack }
  | inherited (c : C) (p : Slot) (pgdir : Addr) (priority : Option ℤ)
      (haction : a = .copyuvm c (some pgdir)) (hctrl : (s.cpu c).ctrl = .run p)
      (hpc : (s.thread p).pc = .forkCopyuvm n priority) :
      Life kernel s a n (inherit p pgdir priority (s.proc n))
  | started (c : C) (p : Slot) (haction : a = .runnable c) (hctrl : (s.cpu c).ctrl = .run p)
      (hpc : (s.thread p).pc = .forkRunnable n) :
      Life kernel s a n { s.proc n with state := .runnable }
  | freed (c : C) (p : Slot) (pgdir : Option Addr)
      (haction : a = .kalloc c none ∨ a = .copyuvm c none) (hctrl : (s.cpu c).ctrl = .run p)
      (hchild : (s.thread p).pc.child = some n) :
      Life kernel s a n { s.proc n with pgdir := pgdir, kstack := none, state := .unused }
  | reaped (c : C) (p : Slot) (request : Pc) (hwaiting : request.waiting)
      (haction : request.call c a ∨ a = .resume c ∧ (s.thread p).pc = request)
      (hctrl : (s.cpu c).ctrl = .run p) (hstate : (s.proc n).state = .zombie)
      (hparent : (s.proc n).parent = some p) :
      Life kernel s a n (s.proc n).reaped
  | committed (c : C) (pgdir : Addr) (haction : a = .execCommit c)
      (hctrl : (s.cpu c).ctrl = .run n) :
      Life kernel s a n { s.proc n with pgdir := some pgdir }

namespace Life

/-- A step that changes only slot `p`. -/
theorem of_slot {q' : Proc} (p : Slot) (hother : n ≠ p → q' = s.proc n)
    (hself : n = p → Life kernel s a n q') : Life kernel s a n q' := by
  by_cases hn : n = p
  · exact hself hn
  · rw [hother hn]
    exact .same

theorem of_wakes {q' : Proc} (h : (s.proc n).Wakes q') : Life kernel s a n q' := by
  rcases h with rfl | ⟨hstate, rfl⟩
  · exact .same
  · exact .woken hstate

/-- A creation time stays for as long as the slot is in use. -/
theorem ctime_eq {q' : Proc} (h : Life kernel s a n q')
    (hstate : (s.proc n).state ≠ .unused) : q'.ctime = (s.proc n).ctime := by
  cases h with
  | allocated _ _ _ hunused => exact absurd (find?_slots_eq_some_iff.mp hunused).1 hstate
  | exited _ x _ _ hx => rcases hx with rfl | ⟨-, rfl⟩ <;> rfl
  | orphaned _ _ x _ _ _ hx => rcases hx with rfl | ⟨-, rfl⟩ <;> rfl
  | _ => rfl

end Life

/-- Where the thread of `p` may stand after a step by action `a`. -/
inductive Advance (s : State C) (a : Action C) (p : Slot) : Pc → Prop
  | same : Advance s a p (s.thread p).pc
  | user : Advance s a p .user
  | request (c : C) (request : Pc) (hcall : request.call c a) (hctrl : (s.cpu c).ctrl = .run p) :
      Advance s a p request
  | forkKalloc (c : C) (np : Slot) (priority : Option ℤ) (haction : a = .fork c priority)
      (hunused : firstUnused s.proc = some np) :
      Advance s a p (.forkKalloc np priority)
  | forkCopyuvm (np : Slot) (priority : Option ℤ)
      (hpc : (s.thread p).pc = .forkKalloc np priority) :
      Advance s a p (.forkCopyuvm np priority)
  | forkRunnable (np : Slot) (priority : Option ℤ)
      (hpc : (s.thread p).pc = .forkCopyuvm np priority) :
      Advance s a p (.forkRunnable np)
  | exit : Advance s a p .exit
  | execLoad (page : Addr) (hpc : (s.thread p).pc = .user) : Advance s a p (.execLoad page)
  | execSwitch (page : Addr) (hpc : (s.thread p).pc = .execLoad page) :
      Advance s a p (.execSwitch (s.proc p).pgdir)
  | execFree (oldpgdir : Option Addr) (hpc : (s.thread p).pc = .execSwitch oldpgdir) :
      Advance s a p (.execFree oldpgdir)

/-- A step that changes only the thread of `r`. -/
theorem Advance.of_thread {pc : Pc} (r : Slot) (hother : p ≠ r → pc = (s.thread p).pc)
    (hself : p = r → Advance s a p pc) : Advance s a p pc := by
  by_cases hp : p = r
  · exact hself hp
  · rw [hother hp]
    exact .same

theorem Pc.eq_of_call {c' : C} {request request' : Pc} (h : request.call c a)
    (h' : request'.call c' a) : c' = c ∧ request' = request := by
  cases request <;> cases request' <;> simp_all [Pc.call]

theorem Pc.not_call_resume {c' : C} {request : Pc} : ¬ request.call c (.resume c') := by
  cases request <;> simp [Pc.call]

section Steps

variable [DecidableEq C]

theorem Round.life (hinv : Inv s) {request : Pc} {scanning : State C}
    (hentry : Entry s c p request a scanning) (hround : Round kernel scanning c p request s')
    (n : Slot) : Life kernel s a n (s'.proc n) := by
  have hctrl := hentry.ctrl
  cases hround with
  | reaped z kstack pgdir hfinds hkstack hpgdir hlock =>
      have hz : z ≠ p := finds_ne hfinds ((hentry.state_eq p).trans (hinv.run c p hctrl).2)
      obtain ⟨hparent, hzombie⟩ := finds_spec hfinds
      rw [hentry.proc_of_ne hz] at hparent hzombie
      by_cases hn : n = z
      · subst hn
        simpa [hentry.proc_of_ne hz] using
          Life.reaped c p request hentry.waiting hentry.action hctrl hzombie hparent
      · -- the caller itself changes only if it has just been woken up
        refine .of_slot p (fun hnp => by simp [hn, hentry.proc_of_ne hnp]) ?_
        rintro rfl
        cases hentry with
        | call => simpa [hn] using Life.same
        | woken => simpa [hn] using Life.resumed c rfl hctrl
  | gaveUp hfinds hcannot hlock =>
      refine .of_slot p (fun hn => by simp [hn, hentry.proc_of_ne]) ?_
      rintro rfl
      rcases hentry.proc_self with hself | hself
      · simpa [hself, hentry.ticks] using Life.gaveUp c _ (Or.inl rfl) hctrl
      · simpa [hself, hentry.ticks] using Life.gaveUp c _ (Or.inr rfl) hctrl
  | slept hfinds hkids hkilled hlock =>
      refine .of_slot p (fun hn => by simp [hn, hentry.proc_of_ne]) ?_
      rintro rfl
      rcases hentry.proc_self with hself | hself <;>
        simpa [hself, hentry.ticks] using Life.waits c hctrl

/-- What a step does to a slot is on the list. -/
theorem Step.life (hinv : Inv s) (hstep : Step kernel s a s') (n : Slot) :
    Life kernel s a n (s'.proc n) := by
  cases hstep with
  | dispatch c first p pgdir hctrl hchoose hkstack hpgdir =>
      refine .of_slot p (by simp +contextual) ?_
      rintro rfl
      simpa using Life.dispatched c first rfl hctrl hchoose
  | resumeSleep c p hctrl hresume hpc hlock =>
      refine .of_slot p (by simp +contextual) ?_
      rintro rfl
      simpa using Life.resumed c rfl hctrl
  | round a c p request scanning s' hentry hround => exact hround.life hinv hentry n
  | yield c p hctrl hresume hlock =>
      refine .of_slot p (by simp +contextual) ?_
      rintro rfl
      simpa using Life.yielded c rfl hctrl
  | sleep c p address hctrl hresume hpc hlock =>
      refine .of_slot p (by simp +contextual) ?_
      rintro rfl
      simpa using Life.slept c address rfl hctrl
  | zombie c p hctrl hresume hpc hlock =>
      by_cases hn : n = p
      · subst hn
        obtain ⟨x, hx, hself⟩ := exitTable_self n s.ticks s.proc
        simpa [hself] using Life.exited c x rfl hctrl hx
      · obtain ⟨x, hx, hother⟩ := exitTable_of_ne s.ticks s.proc hn
        simpa [hother] using Life.orphaned c p x rfl hctrl hn hx
  | wakeup c address henabled hlock => exact .of_wakes (wakeup1_wakes _ _ n)
  | kill c p pid hctrl hresume hpc hlock =>
      rcases kill_apply pid s.proc n with hn | ⟨hfinds, hn⟩
      · simpa [hn] using Life.same
      · simpa [hn] using Life.killed c pid rfl hfinds
  | fork c p np priority hkernel hctrl hresume hpc hlock hunused =>
      refine .of_slot np (by simp +contextual) ?_
      rintro rfl
      simpa using Life.allocated c priority rfl hunused
  | kallocFail c p np priority hctrl hresume hpc =>
      refine .of_slot np (by simp +contextual) ?_
      rintro rfl
      simpa using Life.freed c p _ (Or.inl rfl) hctrl (by simp [hpc, Pc.child])
  | kalloc c p np priority kstack hctrl hresume hpc hfresh =>
      refine .of_slot np (by simp +contextual) ?_
      rintro rfl
      simpa using Life.stacked c p kstack rfl hctrl (by simp [hpc, Pc.child])
  | copyuvmFail c p np priority kstack hctrl hresume hpc hkstack =>
      refine .of_slot np (by simp +contextual) ?_
      rintro rfl
      simpa using Life.freed c p none (Or.inr rfl) hctrl (by simp [hpc, Pc.child])
  | copyuvm c p np priority pgdir hctrl hresume hpc hfresh =>
      refine .of_slot np (by simp +contextual) ?_
      rintro rfl
      simpa using Life.inherited c p pgdir priority rfl hctrl hpc
  | runnable c p np hctrl hresume hpc hlock =>
      refine .of_slot np (by simp +contextual) ?_
      rintro rfl
      simpa using Life.started c p rfl hctrl hpc
  | ps c p hctrl hresume hpc hlock =>
      by_cases hn : (s.proc n).state = .unused
      · simpa [psTable, hn] using Life.same
      · simpa [psTable, hn] using Life.listed c rfl hn
  | execCommit c p page hctrl hresume hpc =>
      refine .of_slot p (by simp +contextual) ?_
      rintro rfl
      simpa using Life.committed c page rfl hctrl
  | fault c p hctrl hresume hpc =>
      refine .of_slot p (by simp +contextual) ?_
      rintro rfl
      simpa using Life.fault c rfl hctrl
  | _ => exact .same

/-- What a step does to a thread is on the list. -/
theorem Step.advance (hstep : Step kernel s a s') (p : Slot) :
    Advance s a p (s'.thread p).pc := by
  cases hstep with
  | resume c r | resumeSleep c r | yield c r | sleep c r | zombie c r =>
      refine .of_thread r (by simp +contextual) ?_
      rintro rfl
      simpa using Advance.same
  | kill c r | forkFull c r | kallocFail c r | copyuvmFail c r | runnable c r | ps c r
  | execBad c r | execFree c r =>
      refine .of_thread r (by simp +contextual) ?_
      rintro rfl
      simpa using Advance.user
  | round a c r request scanning s' hentry hround =>
      by_cases hp : p = r
      · subst hp
        cases hround with
        | reaped => cases request <;> simpa [answered] using Advance.user
        | gaveUp => simpa using Advance.user
        | slept =>
            rcases hentry.action with hcall | ⟨-, hpc⟩
            · simpa [hentry.pc_eq] using Advance.request c request hcall hentry.ctrl
            · simpa [hentry.pc_eq, ← hpc] using Advance.same
      · have hother := congrArg Thread.pc (hentry.thread_of_ne hp)
        cases hround <;> simpa [hp, hother] using Advance.same
  | fork c r np priority _ _ _ _ _ hunused =>
      refine .of_thread r (by simp +contextual) ?_
      rintro rfl
      simpa using Advance.forkKalloc c np priority rfl hunused
  | kalloc c r np priority kstack _ _ hpc =>
      by_cases hp : p = r
      · subst hp
        simpa using Advance.forkCopyuvm np priority hpc
      · -- the child's thread starts anew, at `user`
        by_cases hnp : p = np
        · subst hnp
          simpa [hp] using Advance.user
        · simpa [hp, hnp] using Advance.same
  | copyuvm c r np priority pgdir _ _ hpc =>
      refine .of_thread r (by simp +contextual) ?_
      rintro rfl
      simpa using Advance.forkRunnable np priority hpc
  | exit c r =>
      refine .of_thread r (by simp +contextual) ?_
      rintro rfl
      simpa using Advance.exit
  | exec c r page _ _ hpc =>
      refine .of_thread r (by simp +contextual) ?_
      rintro rfl
      simpa using Advance.execLoad page hpc
  | execCommit c r page _ _ hpc =>
      refine .of_thread r (by simp +contextual) ?_
      rintro rfl
      simpa using Advance.execSwitch page hpc
  | execSwitch c r oldpgdir pgdir _ _ hpc =>
      refine .of_thread r (by simp +contextual) ?_
      rintro rfl
      simpa using Advance.execFree oldpgdir hpc
  | _ => exact .same

/-- A zombie stays a zombie until it is reaped. -/
theorem Step.zombie_or_unused (hinv : Inv s) (hstep : Step kernel s a s')
    (hzombie : (s.proc n).state = .zombie) :
    (s'.proc n).state = .zombie ∨ (s'.proc n).state = .unused := by
  have hrun : ∀ {c : C}, (s.cpu c).ctrl ≠ .run n := by
    intro c hctrl
    simp [(hinv.run c n hctrl).2] at hzombie
  have hchild : ∀ {q : Slot}, (s.thread q).pc.child ≠ some n := by
    intro q hq
    simp [hinv.embryo q n hq] at hzombie
  have hlife := hstep.life hinv n
  generalize s'.proc n = q' at hlife
  cases hlife with
  | same => exact Or.inl hzombie
  | woken hsleeping => simp [hzombie] at hsleeping
  | dispatched _ _ _ _ hchoose => simp [choose_runnable hchoose] at hzombie
  | orphaned _ _ x _ _ _ hx =>
      rcases hx with rfl | ⟨hsleeping, rfl⟩
      · exact Or.inl hzombie
      · simp [hzombie] at hsleeping
  | killed => exact Or.inl (by simp [Proc.kill, hzombie])
  | listed => exact Or.inl hzombie
  | allocated _ _ _ hunused =>
      have hnot := (find?_slots_eq_some_iff.mp hunused).1
      simp [hzombie] at hnot
  | stacked _ _ _ _ _ hpc => exact absurd hpc hchild
  | inherited _ p _ _ _ _ hpc => exact absurd (by rw [hpc]; rfl) (hchild (q := p))
  | started _ p _ _ hpc => exact absurd (by rw [hpc]; rfl) (hchild (q := p))
  | freed => exact Or.inr rfl
  | reaped => exact Or.inr rfl
  | resumed _ _ hctrl => exact absurd hctrl hrun
  | yielded _ _ hctrl => exact absurd hctrl hrun
  | slept _ _ _ hctrl => exact absurd hctrl hrun
  | waits _ hctrl => exact absurd hctrl hrun
  | gaveUp _ _ _ hctrl => exact absurd hctrl hrun
  | exited _ _ _ hctrl => exact absurd hctrl hrun
  | fault _ _ hctrl => exact absurd hctrl hrun
  | committed _ _ _ hctrl => exact absurd hctrl hrun

/-- A thread that makes a request, or has made it and is switched to, takes a
round of it. -/
theorem Step.exists_round (hinv : Inv s) (hstep : Step kernel s a s')
    (hctrl : (s.cpu c).ctrl = .run p) (request : Pc) (hwaiting : request.waiting)
    (haction : request.call c a ∨ a = .resume c ∧ (s.thread p).pc = request) :
    ∃ scanning, Entry s c p request a scanning ∧ Round kernel scanning c p request s' := by
  have hround : ∃ c' p' request' scanning, Entry s c' p' request' a scanning ∧
      Round kernel scanning c' p' request' s' := by
    rcases haction with hcall | ⟨rfl, hpc⟩
    · cases request with
      | wait =>
          obtain rfl : a = .wait c := hcall
          cases hstep with
          | round _ c' p' request' scanning _ hentry hround =>
              exact ⟨c', p', request', scanning, hentry, hround⟩
      | procstat pid pstat =>
          obtain rfl : a = .procstat c pid pstat := hcall
          cases hstep with
          | round _ c' p' request' scanning _ hentry hround =>
              exact ⟨c', p', request', scanning, hentry, hround⟩
      | _ => exact hwaiting.elim
    · have hsleep := hinv.waiting p (hpc ▸ hwaiting)
      cases hstep with
      | resume _ p' hctrl' hresume =>
          obtain rfl : p = p' := by simpa [hctrl] using hctrl'
          simp [hsleep] at hresume
      | resumeSleep _ p' hctrl' _ hnot =>
          obtain rfl : p = p' := by simpa [hctrl] using hctrl'
          exact absurd (hpc ▸ hwaiting) hnot
      | round _ c' p' request' scanning _ hentry hround =>
          exact ⟨c', p', request', scanning, hentry, hround⟩
  obtain ⟨c', p', request', scanning, hentry, hround⟩ := hround
  have hctrl' := hentry.ctrl
  have heq : c' = c ∧ request' = request := by
    cases hentry with
    | call _ hcall' =>
        rcases haction with hcall | ⟨rfl, -⟩
        · exact Pc.eq_of_call hcall hcall'
        · exact absurd hcall' Pc.not_call_resume
    | woken _ _ hpc' =>
        rcases haction with hcall | ⟨hresume, hpc⟩
        · exact absurd hcall Pc.not_call_resume
        · obtain rfl : c' = c := by simpa using hresume
          obtain rfl : p = p' := by simpa [hctrl] using hctrl'
          exact ⟨rfl, hpc'.symm.trans hpc⟩
  obtain ⟨rfl, rfl⟩ := heq
  obtain rfl : p = p' := by simpa [hctrl] using hctrl'
  exact ⟨scanning, hentry, hround⟩

end Steps

end Xv6
