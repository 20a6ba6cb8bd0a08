import Xv6.Proc.Children
import Xv6.Proc.Family

/-!
# No exit is missed

A process that sleeps in `wait` or `procstat` sleeps on its own slot, and its last
scan of the table found nothing.  A child can only turn up as a zombie by its own
`exit`, which wakes up its parent, or by the `exit` of another parent, which
wakes up init if it hands on a zombie.  So no sleeper has a child that it waits
for (`no_missed_exit`).
-/

namespace Xv6

open Transition

variable {C : Type} {kernel : Kernel} {s s' : State C} {a : Action C} {c : C} {p q : Slot}
variable {table : Ptable} {cur : Slot} {ticks : BitVec 32}

/-! ## What `exit` wakes up -/

theorem Proc.Wakes.chan_eq {q q' : Proc} (h : q.Wakes q') : q'.chan = q.chan := by
  rcases h with rfl | ⟨-, rfl⟩ <;> rfl

theorem Proc.Wakes.ne_sleeping {q q' : Proc} (h : q.Wakes q') (hq : q.state ≠ .sleeping) :
    q'.state ≠ .sleeping := by
  rcases h with rfl | ⟨-, rfl⟩
  · exact hq
  · simp

theorem Proc.Wakes.zombie_iff {q q' : Proc} (h : q.Wakes q') :
    q'.state = .zombie ↔ q.state = .zombie := by
  rcases h with rfl | ⟨hsleeping, rfl⟩
  · rfl
  · simp [hsleeping]

theorem wakeup1_ne_sleeping {chan : Chan} (h : (table p).chan = some chan) :
    (wakeup1 (some chan) table p).state ≠ .sleeping := by
  unfold wakeup1
  split
  · simp
  · rename_i hnot
    exact fun hsleeping => hnot ⟨hsleeping, h⟩

/-- The loop of `exit` wakes nobody up for long enough to sleep again. -/
theorem foldl_passToInit_ne_sleeping (l : List Slot) (h : (table p).state ≠ .sleeping) :
    (l.foldl (passToInit cur) table p).state ≠ .sleeping := by
  obtain ⟨x, hx, hp⟩ := foldl_passToInit_apply cur l table p
  rw [hp]
  split
  · exact hx.ne_sleeping h
  · exact hx.ne_sleeping h

/-- Passing on a zombie wakes up init. -/
theorem passToInit_ne_sleeping (hchan : (table initproc).chan = some (.proc initproc))
    (hparent : (table q).parent = some cur) (hzombie : (table q).state = .zombie) :
    (passToInit cur table q initproc).state ≠ .sleeping := by
  unfold passToInit
  rw [if_pos hparent, if_pos hzombie]
  refine wakeup1_ne_sleeping (Eq.trans ?_ hchan)
  exact Ptable.modify_field _ _ _ Proc.chan (by intro; rfl) _

theorem foldl_passToInit_init {l : List Slot} (hq : q ∈ l)
    (hchan : (table initproc).chan = some (.proc initproc))
    (hparent : (table q).parent = some cur) (hzombie : (table q).state = .zombie) :
    (l.foldl (passToInit cur) table initproc).state ≠ .sleeping := by
  induction l generalizing table with
  | nil => simp at hq
  | cons r rest ih =>
      rw [List.foldl_cons]
      by_cases hr : q = r
      · subst hr
        exact foldl_passToInit_ne_sleeping rest (passToInit_ne_sleeping hchan hparent hzombie)
      · have hrest : q ∈ rest := (List.mem_cons.mp hq).resolve_left hr
        obtain ⟨x, hx, hself⟩ := passToInit_apply cur table r q
        obtain ⟨y, hy, hinit⟩ := passToInit_apply cur table r initproc
        rw [if_neg hr] at hself
        refine ih hrest ?_ ?_ ?_
        · rw [hinit]
          split
          · exact hy.chan_eq.trans hchan
          · exact hy.chan_eq.trans hchan
        · rw [hself, hx.parent_eq, hparent]
        · rw [hself, hx.zombie_iff, hzombie]

/-- Who gets a zombie child by an `exit` is awake after it. -/
theorem exitTable_ne_sleeping (hcur : p ≠ cur) (hself : (table cur).parent ≠ some cur)
    (hchan : (table p).chan = some (.proc p))
    (hbefore : ¬ ((table q).parent = some p ∧ (table q).state = .zombie))
    (hparent : (exitTable cur ticks table q).parent = some p)
    (hzombie : (exitTable cur ticks table q).state = .zombie) :
    (exitTable cur ticks table p).state ≠ .sleeping := by
  rw [exitTable, Ptable.modify_of_ne _ _ _ hcur]
  rw [exitTable_parent] at hparent
  by_cases hq : q = cur
  · subst hq
    rw [if_neg hself] at hparent
    refine foldl_passToInit_ne_sleeping slots ?_
    rw [hparent]
    exact wakeup1_ne_sleeping hchan
  · obtain ⟨x, hx, hother⟩ := exitTable_of_ne ticks table hq
    have hzombie' : (table q).state = .zombie := by
      rw [hother] at hzombie
      exact hx.zombie_iff.mp hzombie
    by_cases hpassed : (table q).parent = some cur
    · rw [if_pos hpassed] at hparent
      obtain rfl := Option.some.inj hparent
      have hwakes := wakeup1_wakes ((table cur).parent.map .proc) table
      exact foldl_passToInit_init (mem_slots q) ((hwakes initproc).chan_eq.trans hchan)
        ((hwakes q).parent_eq.trans hpassed) ((hwakes q).zombie_iff.mpr hzombie')
    · rw [if_neg hpassed] at hparent
      exact absurd ⟨hparent, hzombie'⟩ hbefore

/-! ## The sleepers -/

/-- `q` is what a round of the request would reap. -/
def Sought (request : Pc) (table : Ptable) (cur q : Slot) : Prop :=
  (table q).parent = some cur ∧ (table q).state = .zombie ∧
    ∀ pid pstat, request = .procstat pid pstat → (table q).pid = pid

theorem finds_eq_none_iff {request : Pc} (hwaiting : request.waiting) :
    finds request table cur = none ↔ ∀ q, ¬ Sought request table cur q := by
  cases request with
  | wait => simp [finds, waitFinds, mem_slots, Sought]
  | procstat pid pstat =>
      simp only [finds, procstatFinds, find?_slots_eq_none_iff, Sought, Pc.procstat.injEq]
      refine forall_congr' fun q => not_congr ?_
      constructor
      · rintro ⟨hparent, rfl, hzombie⟩
        exact ⟨hparent, hzombie, fun _ _ h => h.1⟩
      · rintro ⟨hparent, hzombie, hpid⟩
        exact ⟨hparent, hpid pid pstat ⟨rfl, rfl⟩, hzombie⟩
  | _ => exact hwaiting.elim

/-- Who sleeps in `wait` or `procstat` sleeps on its own slot, and there is no
zombie that it waits for. -/
def WaitInv (s : State C) : Prop :=
  ∀ p, (s.proc p).state = .sleeping → (s.thread p).pc.waiting →
    (s.proc p).chan = some (.proc p) ∧ finds (s.thread p).pc s.proc p = none

section Steps

variable [DecidableEq C]

omit [DecidableEq C] in
/-- A sleeper has slept before, or has just been running. -/
theorem Life.sleeping_cases {q' : Proc} (h : Life kernel s a p q')
    (hsleeping : q'.state = .sleeping) :
    (s.proc p).state = .sleeping ∧ q'.chan = (s.proc p).chan ∨ ∃ c, (s.cpu c).ctrl = .run p := by
  cases h with
  | same | fault | listed | stacked | inherited | committed => exact Or.inl ⟨hsleeping, rfl⟩
  | resumed c _ hctrl | slept c _ _ hctrl | waits c hctrl | gaveUp c _ _ hctrl =>
      exact Or.inr ⟨c, hctrl⟩
  | orphaned _ _ x _ _ _ hx =>
      rcases hx with rfl | ⟨-, rfl⟩
      · exact Or.inl ⟨hsleeping, rfl⟩
      · simp [Proc.orphaned] at hsleeping
  | killed =>
      by_cases hbefore : (s.proc p).state = .sleeping
      · simp [Proc.kill, hbefore] at hsleeping
      · simp [Proc.kill, hbefore] at hsleeping
  | allocated | reaped => simp [Xv6.allocated, Proc.reaped] at hsleeping
  | _ => simp at hsleeping

/-- How a running process goes to sleep. -/
theorem Step.slept_of_run (hinv : Inv s) (hstep : Step kernel s a s')
    (hctrl : (s.cpu c).ctrl = .run p) (hsleeping : (s'.proc p).state = .sleeping) :
    ¬ (s'.thread p).pc.waiting ∨
      (s'.proc p).chan = some (.proc p) ∧ finds (s'.thread p).pc s'.proc p = none := by
  have hrunning := (hinv.run c p hctrl).2
  have hawake : (s.proc p).state ≠ .sleeping := by simp [hrunning]
  have hmodify : ∀ (r : Slot) (change : Proc → Proc),
      (∀ q, (change q).state = .sleeping → q.state = .sleeping) →
        (s.proc.modify r change p).state ≠ .sleeping := by
    intro r change hchange
    rw [Ptable.modify_apply]
    split
    · exact fun h => hawake (hchange _ h)
    · exact hawake
  cases hstep with
  | round a c r request scanning s' hentry hround =>
      have hp : p = r := by
        by_contra hp
        have hproc := hentry.proc_of_ne hp
        cases hround with
        | reaped z =>
            by_cases hz : p = z
            · subst hz
              simp [Proc.reaped] at hsleeping
            · simp [hz, hproc, hrunning] at hsleeping
        | gaveUp => simp [hp, hproc, hrunning] at hsleeping
        | slept => simp [hp, hproc, hrunning] at hsleeping
      subst hp
      cases hround with
      | reaped => cases request <;> simp [answered, Pc.waiting]
      | gaveUp => simp [Pc.waiting]
      | slept hfinds =>
          have hpc : (scanning.thread p).pc = request := hentry.pc_eq
          refine Or.inr ⟨by simp, ?_⟩
          simp only [State.setCpu_thread, State.setThread_thread, State.setProc_thread,
            Function.update_self, hpc]
          rw [finds_eq_none_iff hentry.waiting] at hfinds ⊢
          intro q hsought
          by_cases hq : q = p
          · subst hq
            simpa using hsought.2.1
          · exact hfinds q (by simpa [Sought, hq] using hsought)
  | sleep c r address _ _ hpc =>
      by_cases hp : p = r
      · subst hp
        rcases hpc with hpc | hpc | ⟨page, hpc⟩ <;> simp [hpc, Pc.waiting]
      · simp [hp, hrunning] at hsleeping
  | zombie c r =>
      by_cases hp : p = r
      · subst hp
        obtain ⟨x, -, hself⟩ := exitTable_self p s.ticks s.proc
        simp [hself] at hsleeping
      · obtain ⟨x, hx, hother⟩ := exitTable_of_ne s.ticks s.proc hp
        exact absurd (by simpa [hother, Proc.orphaned] using hsleeping) (hx.ne_sleeping hawake)
  | wakeup c address =>
      exact absurd hsleeping ((wakeup1_wakes _ _ p).ne_sleeping hawake)
  | kill c r pid =>
      rcases kill_apply pid s.proc p with hp | ⟨-, hp⟩
      · simp [hp, hrunning] at hsleeping
      · simp [hp, Proc.kill, hrunning] at hsleeping
  | dispatch | resumeSleep | yield | kallocFail | kalloc | copyuvmFail | copyuvm | runnable
  | execCommit | fault =>
      exact absurd hsleeping (hmodify _ _ (by simp [inherit]))
  | fork => exact absurd hsleeping (hmodify _ _ (by simp [allocated]))
  | ps => simp [hrunning] at hsleeping
  | _ => exact absurd hsleeping hawake

/-- Who sleeps in `wait` or `procstat` after a step has slept there before, or has
gone to sleep after a round that found nothing. -/
theorem Step.sleeping_cases (hinv : Inv s) (hstep : Step kernel s a s')
    (hsleeping : (s'.proc p).state = .sleeping) (hwaiting : (s'.thread p).pc.waiting) :
    ((s.proc p).state = .sleeping ∧ (s'.proc p).chan = (s.proc p).chan ∧
        (s'.thread p).pc = (s.thread p).pc) ∨
      (s'.proc p).chan = some (.proc p) ∧ finds (s'.thread p).pc s'.proc p = none := by
  rcases (hstep.life hinv p).sleeping_cases hsleeping with ⟨hbefore, hchan⟩ | ⟨c, hctrl⟩
  · rcases hstep.pc_of_waiting hwaiting with hpc | ⟨c, hctrl, -⟩
    · exact Or.inl ⟨hbefore, hchan, hpc⟩
    · simp [(hinv.run c p hctrl).2] at hbefore
  · rcases hstep.slept_of_run hinv hctrl hsleeping with hnot | hslept
    · exact absurd hwaiting hnot
    · exact Or.inr hslept

theorem WaitInv.step (h : WaitInv s) (hinv : Inv s) (htree : TreeInv s)
    (hstep : Step kernel s a s') : WaitInv s' := by
  intro p hsleeping hwaiting
  rcases hstep.sleeping_cases hinv hsleeping hwaiting with ⟨hbefore, hchan, hpc⟩ | hslept
  swap
  · exact hslept
  rw [hpc] at hwaiting ⊢
  obtain ⟨hchan', hfinds⟩ := h p hbefore hwaiting
  refine ⟨hchan.trans hchan', (finds_eq_none_iff hwaiting).mpr fun q hsought => ?_⟩
  have hnone := (finds_eq_none_iff hwaiting).mp hfinds q
  obtain ⟨hparent, hzombie, hpid⟩ := hsought
  have hlife := hstep.life hinv q
  -- the pid of `q` is what it was, so `q` had another parent or was no zombie
  have hbefore' : ¬ ((s.proc q).parent = some p ∧ (s.proc q).state = .zombie) := by
    rintro ⟨hparent', hzombie'⟩
    refine hnone ⟨hparent', hzombie', fun pid pstat hrequest => ?_⟩
    rcases hlife.pid_eq hinv (by simp [hzombie]) with ⟨-, hsame⟩ | ⟨-, hunused, -⟩
    · exact hsame.symm.trans (hpid pid pstat hrequest)
    · simp [(find?_slots_eq_some_iff.mp hunused).1] at hzombie'
  have hexit : ∀ c, a ≠ .zombie c := by
    rintro c rfl
    obtain ⟨cur, hctrl, hpc', -⟩ := hstep.exits_of_zombie hinv
    have hne : p ≠ cur := by
      rintro rfl
      simp [(hinv.run c p hctrl).2] at hbefore
    have hself : (s.proc cur).parent ≠ some cur := by
      refine htree.irrefl cur ?_
      rintro rfl
      exact htree.init.2 hpc'
    rw [hstep.proc_of_zombie hctrl] at hparent hzombie hsleeping
    exact exitTable_ne_sleeping hne hself hchan' hbefore' hparent hzombie hsleeping
  by_cases hzombie' : (s.proc q).state = .zombie
  · rcases hlife.parent_eq with hsame | ⟨c, hzombies⟩ | ⟨c, r, _, _, -, -, hpc'⟩ | ⟨-, hunused, -⟩
    · exact hbefore' ⟨hsame.symm.trans hparent, hzombie'⟩
    · exact hexit c hzombies
    · simp [hinv.embryo r q (by rw [hpc']; rfl)] at hzombie'
    · simp [hunused] at hzombie
  · obtain ⟨c, hzombies, -⟩ := hlife.zombie_of_exits hzombie' hzombie
    exact hexit c hzombies

omit [DecidableEq C] in
theorem WaitInv.boot (kstack pgdir : Addr) : WaitInv (boot C kstack pgdir) := by
  intro p _ hwaiting
  simp [Xv6.boot, Pc.waiting] at hwaiting

/-- `p` sleeps in `wait` or `procstat` although its call could return the child `q`. -/
def MissedExit (s : State C) (p q : Slot) : Prop :=
  (s.proc p).state = .sleeping ∧ (s.proc q).parent = some p ∧ (s.proc q).state = .zombie ∧
    ((s.thread p).pc = .wait ∨ ∃ pstat, (s.thread p).pc = .procstat (s.proc q).pid pstat)

/-- No exit is missed, whoever the parent was when the child exited. -/
theorem no_missed_exit (kernel : Kernel) (s : State C) (hreach : Reachable kernel s) (p q : Slot) :
    ¬ MissedExit s p q := by
  obtain ⟨kstack, pgdir, -, hreaches⟩ := hreach
  obtain ⟨-, hwait⟩ : TreeInv s ∧ WaitInv s := (Inv.boot kstack pgdir).run_invariant
    (I := fun s => TreeInv s ∧ WaitInv s) hreaches ⟨.boot kstack pgdir, .boot kstack pgdir⟩
    fun _ _ _ hstep _ hinv h => ⟨h.1.step hinv hstep, h.2.step hinv h.1 hstep⟩
  rintro ⟨hsleeping, hparent, hzombie, hpc⟩
  have hnone : ∀ request : Pc, request.waiting → (s.thread p).pc = request →
      ¬ Sought request s.proc p q := by
    rintro request hwaiting rfl
    exact (finds_eq_none_iff hwaiting).mp (hwait p hsleeping hwaiting).2 q
  rcases hpc with hpc | ⟨pstat, hpc⟩
  · exact hnone .wait trivial hpc ⟨hparent, hzombie, by simp⟩
  · exact hnone (.procstat (s.proc q).pid pstat) trivial hpc ⟨hparent, hzombie, by simp⟩

end Steps

/-- While the first process sleeps in `wait`, its child has not exited. -/
theorem no_missed_exit_child : ∃ s : State Unit, (s.proc 0).state = .sleeping ∧
    (s.thread 0).pc = .wait ∧ (s.proc 1).parent = some 0 ∧ (s.proc 1).state ≠ .zombie := by
  have hrun : (exec (step .fcfs) (boot Unit 1 2) (atUser ++ forks none 3 4 ++
      [.wait (), .back (), .acquire (), .pick (), .resume (), .exit ()])).test
        (fun s => decide ((s.proc 0).state = .sleeping ∧ (s.thread 0).pc = .wait ∧
          (s.proc 1).parent = some 0)) = true := by
    decide +kernel
  obtain ⟨s, hreaches, hrun⟩ := reaches_of_test hrun
  obtain ⟨hsleeping, hpc, hparent⟩ := of_decide_eq_true hrun
  exact ⟨s, hsleeping, hpc, hparent, fun hzombie =>
    no_missed_exit .fcfs s ⟨1, 2, by decide, hreaches⟩ 0 1
      ⟨hsleeping, hparent, hzombie, Or.inl hpc⟩⟩

end Xv6
