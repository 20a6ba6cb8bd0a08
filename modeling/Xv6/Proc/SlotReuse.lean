import Xv6.Proc.Scheduler
import Xv6.Proc.Pids

/-!
# What a new process inherits from a dead one

`allocproc` gives a slot a new pid and new times, and a slot that is not in use
has no sleep channel (`ChanInv`).  But `fork` leaves the priority and the mark of
`kill` of the slot's last process as they are: two calls of `fork` that agree in
everything else make equal children exactly if these two agree (`fork_reuse`).
-/

namespace Xv6

open Transition

variable {C : Type} {kernel : Kernel} {s s' : State C} {a : Action C} {c : C} {p q n : Slot}

/-! ## Sleep channels -/

/-- A slot with a channel is that of a process that sleeps or has slept, and has
not yet returned from `sleep`. -/
def Settled (q : Proc) (t : Thread) : Prop :=
  q.chan = none ∨ t.resume = .sleep ∧ (q.state = .sleeping ∨ q.state.Ready)

namespace Settled

variable {q q' : Proc} {t : Thread}

theorem chan_of_onCpu (h : Settled q t) (hresume : t.resume = .onCpu) : q.chan = none := by
  rcases h with hchan | ⟨hsleep, -⟩
  · exact hchan
  · simp [hresume] at hsleep

theorem chan_of_dead (h : Settled q t) (hdead : q.state.dead) : q.chan = none := by
  rcases h with hchan | ⟨-, hstate⟩
  · exact hchan
  · rcases hdead with hdead | hdead | hdead <;> simp [hdead, ProcState.Ready] at hstate

theorem wakes (h : Settled q t) (hwakes : q.Wakes q') : Settled q' t := by
  rcases hwakes with rfl | ⟨-, rfl⟩
  · exact h
  · exact h.imp_right fun hsleep => ⟨hsleep.1, Or.inr (Or.inl rfl)⟩

theorem kill (h : Settled q t) : Settled q.kill t := by
  refine h.imp_right fun ⟨hsleep, hstate⟩ => ⟨hsleep, ?_⟩
  by_cases hsleeping : q.state = .sleeping
  · exact Or.inr (Or.inl (by simp [Proc.kill, hsleeping]))
  · exact Or.inr (by simpa [Proc.kill, hsleeping] using hstate.resolve_left hsleeping)

end Settled

def ChanInv (s : State C) : Prop :=
  ∀ n, Settled (s.proc n) (s.thread n)

section Steps

variable [DecidableEq C]

theorem ChanInv.round (h : ChanInv s) (hinv : Inv s) {request : Pc} {scanning : State C}
    (hentry : Entry s c p request a scanning) (hround : Round kernel scanning c p request s') :
    ChanInv s' := by
  have hrunning := (hinv.run c p hentry.ctrl).2
  have hself : (scanning.proc p).chan = none := by
    cases hentry with
    | call _ _ _ hresume => exact (h p).chan_of_onCpu hresume
    | woken => simp
  intro n
  by_cases hn : n = p
  · subst hn
    cases hround with
    | reaped z _ _ hfinds =>
        have hz := finds_ne hfinds ((hentry.state_eq n).trans hrunning)
        exact Or.inl (by simpa [hz.symm] using hself)
    | gaveUp => exact Or.inl (by simpa using hself)
    | slept => exact Or.inr (by simp)
  · have hother : Settled (scanning.proc n) (scanning.thread n) := by
      rw [hentry.proc_of_ne hn, hentry.thread_of_ne hn]
      exact h n
    cases hround with
    | reaped z _ _ hfinds =>
        by_cases hz : n = z
        · subst hz
          have hchan := hother.chan_of_dead (Or.inr (Or.inr (finds_spec hfinds).2))
          exact Or.inl (by simpa [Proc.reaped] using hchan)
        · simpa [hn, hz] using hother
    | gaveUp => simpa [hn] using hother
    | slept => simpa [hn] using hother

omit [DecidableEq C] in
/-- A step of the thread of `p` past its `resume` that gives it no channel. -/
theorem ChanInv.thread (h : ChanInv s) (hresume : (s.thread p).resume = .onCpu)
    (hself : (s'.proc p).chan = (s.proc p).chan)
    (hother : ∀ n, n ≠ p → Settled (s.proc n) (s.thread n) → Settled (s'.proc n) (s'.thread n)) :
    ChanInv s' := by
  intro n
  by_cases hn : n = p
  · subst hn
    exact Or.inl (hself.trans ((h n).chan_of_onCpu hresume))
  · exact hother n hn (h n)

omit [DecidableEq C] in
/-- A step of the thread of `p` that works on its child in slot `np`. -/
theorem ChanInv.child {np : Slot} (h : ChanInv s) (hresume : (s.thread p).resume = .onCpu)
    (hdead : (s.proc np).state.dead) (hchan : ∀ n, (s'.proc n).chan = (s.proc n).chan)
    (hother : ∀ n, n ≠ p → n ≠ np → s'.proc n = s.proc n ∧ s'.thread n = s.thread n) :
    ChanInv s' := by
  refine h.thread hresume (hchan p) fun n hn hsettled => ?_
  by_cases hnp : n = np
  · subst hnp
    exact Or.inl ((hchan n).trans (hsettled.chan_of_dead hdead))
  · rw [(hother n hn hnp).1, (hother n hn hnp).2]
    exact hsettled

theorem ChanInv.step (h : ChanInv s) (hinv : Inv s) (hstep : Step kernel s a s') :
    ChanInv s' := by
  cases hstep with
  | startPass | endPass | backFcfs | backPriority | tick | growproc => exact h
  | dispatch c first p pgdir hctrl hchoose =>
      intro n
      by_cases hn : n = p
      · subst hn
        exact (h n).imp (by simp) fun hsleep => by simp [ProcState.Ready, hsleep.1]
      · simpa [hn] using h n
  | resume c p hctrl hresume =>
      intro n
      -- a process that resumes without passing the end of `sleep` has no channel
      by_cases hn : n = p
      · subst hn
        refine Or.inl (((h n).resolve_right fun hsleep => ?_))
        rcases hresume with hresume | hresume <;> simp [hresume] at hsleep
      · simpa [hn] using h n
  | resumeSleep c p hctrl hresume =>
      intro n
      by_cases hn : n = p
      · subst hn
        exact Or.inl (by simp)
      · simpa [hn] using h n
  | round a c p request scanning s' hentry hround => exact h.round hinv hentry hround
  | yield c p hctrl hresume =>
      exact h.thread hresume (by simp) fun n hn hsettled => by simpa [hn] using hsettled
  | sleep c p address hctrl hresume =>
      intro n
      by_cases hn : n = p
      · subst hn
        exact Or.inr (by simp)
      · simpa [hn] using h n
  | zombie c p hctrl hresume =>
      obtain ⟨x, hx, hself⟩ := exitTable_self p s.ticks s.proc
      refine h.thread hresume ?_ fun n hn hsettled => ?_
      · rcases hx with rfl | ⟨-, rfl⟩ <;> simp [hself, Proc.orphaned]
      · obtain ⟨y, hy, hother⟩ := exitTable_of_ne s.ticks s.proc hn
        have hsettled' : Settled y (s.thread n) := hsettled.wakes hy
        simpa [hn, hother, Settled, Proc.orphaned] using hsettled'
  | wakeup c address => exact fun n => (h n).wakes (wakeup1_wakes _ _ n)
  | kill c p pid hctrl hresume =>
      have hkilled : ∀ n, Settled ((kill pid s.proc).1 n) (s.thread n) := by
        intro n
        rcases kill_apply pid s.proc n with hn | ⟨-, hn⟩
        · rw [hn]
          exact h n
        · rw [hn]
          exact (h n).kill
      intro n
      by_cases hn : n = p
      · subst hn
        exact Or.inl (by simpa using (hkilled n).chan_of_onCpu hresume)
      · simpa [hn] using hkilled n
  | fork c p np priority _ hctrl hresume _ _ hunused =>
      have hnp := (find?_slots_eq_some_iff.mp hunused).1
      exact h.child hresume (Or.inl hnp)
        (Ptable.modify_chan _ _ fun _ => rfl) (by simp +contextual)
  | kallocFail c p np priority hctrl hresume hpc =>
      have hembryo := hinv.embryo p np (by rw [hpc]; rfl)
      exact h.child hresume (Or.inr (Or.inl hembryo)) (by simp) (by simp +contextual)
  | kalloc c p np priority kstack hctrl hresume hpc =>
      have hembryo := hinv.embryo p np (by rw [hpc]; rfl)
      exact h.child hresume (Or.inr (Or.inl hembryo)) (by simp) (by simp +contextual)
  | copyuvmFail c p np priority kstack hctrl hresume hpc =>
      have hembryo := hinv.embryo p np (by rw [hpc]; rfl)
      exact h.child hresume (Or.inr (Or.inl hembryo)) (by simp) (by simp +contextual)
  | copyuvm c p np priority pgdir hctrl hresume hpc =>
      have hembryo := hinv.embryo p np (by rw [hpc]; rfl)
      exact h.child hresume (Or.inr (Or.inl hembryo))
        (Ptable.modify_chan _ _ fun _ => rfl) (by simp +contextual)
  | runnable c p np hctrl hresume hpc =>
      have hembryo := hinv.embryo p np (by rw [hpc]; rfl)
      exact h.child hresume (Or.inr (Or.inl hembryo)) (by simp) (by simp +contextual)
  | ps c p hctrl hresume =>
      have hlisted : ∀ n, (psTable s.ticks s.proc n).chan = (s.proc n).chan := by
        intro n
        unfold psTable
        split <;> rfl
      refine h.thread hresume (hlisted p) fun n hn hsettled => ?_
      simpa [hn, Settled, hlisted] using hsettled
  | forkFull c p priority _ hctrl hresume =>
      exact h.thread hresume (by simp) fun n hn hsettled => by simpa [hn] using hsettled
  | exit c p hctrl hresume =>
      exact h.thread hresume (by simp) fun n hn hsettled => by simpa [hn] using hsettled
  | exec c p page hctrl hresume =>
      exact h.thread hresume (by simp) fun n hn hsettled => by simpa [hn] using hsettled
  | execBad c p page hctrl hresume =>
      exact h.thread hresume (by simp) fun n hn hsettled => by simpa [hn] using hsettled
  | execCommit c p page hctrl hresume =>
      exact h.thread hresume (by simp) fun n hn hsettled => by simpa [hn] using hsettled
  | execSwitch c p oldpgdir pgdir hctrl hresume =>
      exact h.thread hresume (by simp) fun n hn hsettled => by simpa [hn] using hsettled
  | execFree c p oldpgdir hctrl hresume =>
      exact h.thread hresume (by simp) fun n hn hsettled => by simpa [hn] using hsettled
  | fault c p hctrl hresume =>
      exact h.thread hresume (by simp) fun n hn hsettled => by simpa [hn] using hsettled

omit [DecidableEq C] in
theorem ChanInv.boot (kstack pgdir : Addr) : ChanInv (boot C kstack pgdir) := by
  intro n
  by_cases hn : n = initproc
  · subst hn
    exact Or.inl (by simp [Xv6.boot, allocated])
  · exact Or.inl (by simp [Xv6.boot, hn])

theorem ChanInv.of_reachable (h : Reachable kernel s) : ChanInv s := by
  obtain ⟨kstack, pgdir, -, hreaches⟩ := h
  exact (Inv.boot kstack pgdir).run_invariant hreaches (ChanInv.boot kstack pgdir)
    fun _ _ _ hstep _ hinv h => h.step hinv hstep

/-! ## Calls of `fork` -/

/-- The fields of a process by which it is scheduled and signalled. -/
def Proc.schedule (q : Proc) : ℤ × Bool × Option Chan × BitVec 32 × BitVec 32 :=
  (q.priority, q.killed, q.chan, q.ctime, q.etime)

/-- The states differ only in what the unused slots contain. -/
structure Alike (s₁ s₂ : State C) : Prop where
  state : ∀ p, (s₁.proc p).state = (s₂.proc p).state
  proc : ∀ p, (s₁.proc p).state ≠ .unused → s₁.proc p = s₂.proc p
  nextpid : s₁.nextpid = s₂.nextpid
  thread : ∀ p, s₁.thread p = s₂.thread p
  cpu : ∀ c, s₁.cpu c = s₂.cpu c
  lock : s₁.lock = s₂.lock
  ticks : s₁.ticks = s₂.ticks
  used : s₁.used = s₂.used

/-- `n` stays in use, no `kill` names its pid, and `ps` does not list it. -/
def Unseen (n : Slot) (s : State C) (a : Action C) (s' : State C) : Prop :=
  (s'.proc n).state ≠ .unused ∧
    match a with
    | .kill _ pid => pid ≠ (s.proc n).pid
    | .ps _ => False
    | _ => True

/-- `fork`, called by `p` in state `s`, makes its child `n` runnable in state `t`.
In between anything may happen but what `Unseen` excludes. -/
def Forks (s : State C) (p n : Slot) (t : State C) : Prop :=
  ∃ c c' s₁ u, (s.cpu c).ctrl = .run p ∧ firstUnused s.proc = some n ∧
    step .priority s (.fork c none) = .next s₁ ∧ Run (step .priority) (Unseen n) s₁ u ∧
      (u.cpu c').ctrl = .run p ∧ (u.thread p).pc = .forkRunnable n ∧
        step .priority u (.runnable c') = .next t

/-- The child at `pc` that has not got its priority yet, and the one it will get. -/
def Pc.given : Pc → Option (Slot × Option ℤ)
  | .forkKalloc np priority => some (np, priority)
  | .forkCopyuvm np priority => some (np, priority)
  | _ => none

theorem Pc.child_of_given {pc : Pc} {np : Slot} {priority : Option ℤ}
    (h : pc.given = some (np, priority)) : pc.child = some np := by
  cases pc <;> simp_all [Pc.given, Pc.child]

/-- A thread builds the child that it built before, or has just allocated it. -/
theorem Step.given_eq {child : Slot × Option ℤ} (hstep : Step kernel s a s')
    (hgiven : (s'.thread p).pc.given = some child) :
    (s.thread p).pc.given = some child ∨
      (∃ c, a = .fork c child.2) ∧ firstUnused s.proc = some child.1 := by
  have hadvance := hstep.advance p
  generalize (s'.thread p).pc = pc at hadvance hgiven
  cases hadvance with
  | same => exact Or.inl hgiven
  | request _ _ hcall => cases pc <;> simp [Pc.call, Pc.given] at hcall hgiven
  | forkKalloc c np priority haction hunused =>
      obtain rfl : (np, priority) = child := by simpa [Pc.given] using hgiven
      exact Or.inr ⟨⟨c, haction⟩, hunused⟩
  | forkCopyuvm np priority hpc => exact Or.inl (by simpa [hpc, Pc.given] using hgiven)
  | _ => simp [Pc.given] at hgiven

/-- Who builds a child in slot `n` comes from `fork`, and while the child is
built its fields do not change. -/
structure Building (n : Slot) (fields : ℤ × Bool × Option Chan × BitVec 32 × BitVec 32)
    (s : State C) : Prop where
  used : (s.proc n).state ≠ .unused
  plain : ∀ p priority, (s.thread p).pc.given = some (n, priority) → priority = none
  fields : (s.proc n).state = .embryo → (s.proc n).schedule = fields

theorem Building.step {fields : ℤ × Bool × Option Chan × BitVec 32 × BitVec 32}
    (h : Building n fields s) (hinv : Inv s) (hstep : Step kernel s a s')
    (hunseen : Unseen n s a s') : Building n fields s' := by
  refine ⟨hunseen.1, fun p priority hgiven => ?_, fun hembryo => ?_⟩
  · rcases hstep.given_eq hgiven with hbefore | ⟨-, hunused⟩
    · exact h.plain p priority hbefore
    · exact absurd (find?_slots_eq_some_iff.mp hunused).1 h.used
  · have hrun : ∀ {c : C}, (s.cpu c).ctrl = .run n → (s.proc n).state = .running :=
      fun {c} hctrl => (hinv.run c n hctrl).2
    have hlife := hstep.life hinv n
    generalize s'.proc n = q' at hlife hembryo
    cases hlife with
    | same => exact h.fields hembryo
    | resumed _ _ hctrl => simp [hrun hctrl] at hembryo
    | gaveUp _ _ _ hctrl => simp [hrun hctrl] at hembryo
    | fault _ _ hctrl => simp [hrun hctrl] at hembryo
    | committed _ _ _ hctrl => simp [hrun hctrl] at hembryo
    | orphaned _ _ x _ _ _ hx =>
        rcases hx with rfl | ⟨-, rfl⟩
        · exact h.fields hembryo
        · simp [Proc.orphaned] at hembryo
    -- the two steps that could change the child's fields are not seen in this run
    | killed c pid haction hfinds =>
        subst haction
        exact absurd (killFinds_eq_some_iff.mp hfinds).1.symm hunseen.2
    | listed c haction =>
        subst haction
        exact hunseen.2.elim
    | allocated _ _ _ hunused => exact absurd (find?_slots_eq_some_iff.mp hunused).1 h.used
    | stacked => exact h.fields hembryo
    | inherited c p pgdir priority _ _ hpc =>
        obtain rfl := h.plain p priority (by rw [hpc]; rfl)
        exact h.fields hembryo
    | _ => simp [Proc.reaped] at hembryo

/-- The fields of the child when `fork` returns. -/
theorem schedule_of_forks {t : State C} (hreach : Reachable .priority s) (h : Forks s p n t) :
    (t.proc n).schedule = ((s.proc n).priority, (s.proc n).killed, none, s.ticks, 0) := by
  obtain ⟨c, c', s₁, u, hctrl, hunused, hfork, run, hctrl', hpc, hrunnable⟩ := h
  have hinv := Inv.of_reachable hreach
  have hstate := (find?_slots_eq_some_iff.mp hunused).1
  have hinv₁ := hinv.step (step_cases hfork)
  have hnew : s₁.proc n = allocated (toInt s.nextpid) s.ticks (s.proc n) := by
    cases step_cases hfork with
    | round _ _ _ _ _ _ hentry => simpa using hentry.action_eq
    | forkFull _ _ _ _ _ _ _ _ hnone => simp [hunused] at hnone
    | fork _ _ np _ _ _ _ _ _ hunused' =>
        obtain rfl : n = np := by simpa [hunused] using hunused'
        simp
  have hbuilding : Building n ((s.proc n).priority, (s.proc n).killed, none, s.ticks, 0) s₁ := by
    refine ⟨?_, fun q priority hgiven => ?_, fun _ => ?_⟩
    · simp [hnew, allocated]
    · rcases (step_cases hfork).given_eq hgiven with hbefore | ⟨⟨c'', heq⟩, -⟩
      · have hembryo := hinv.embryo q n (Pc.child_of_given hbefore)
        simp [hstate] at hembryo
      · exact (Action.fork.inj heq).2.symm
    · -- `allocproc` does not touch the channel, but an unused slot has none
      have hchan := (ChanInv.of_reachable hreach n).chan_of_dead (Or.inl hstate)
      simp [hnew, allocated, Proc.schedule, hchan]
  have hbuilt : Building n ((s.proc n).priority, (s.proc n).killed, none, s.ticks, 0) u :=
    hinv₁.run_invariant run hbuilding fun _ _ _ hstep hunseen hinv h => h.step hinv hstep hunseen
  have hembryo := (hinv₁.of_run run).embryo p n (by rw [hpc]; rfl)
  rw [← hbuilt.fields hembryo]
  cases step_cases hrunnable with
  | round _ _ _ _ _ _ hentry => simpa using hentry.action_eq
  | runnable _ p' np hctrl'' _ hpc' =>
      obtain rfl : p = p' := by simpa [hctrl'] using hctrl''
      obtain rfl : n = np := by simpa [hpc] using hpc'
      simp [Proc.schedule]

/-- Two calls of `fork` in states that differ only in unused slots make children
with the same fields exactly if the slots they get agree in priority and mark. -/
theorem fork_reuse (s₁ s₂ t₁ t₂ : State C) (p n : Slot) (hreach₁ : Reachable .priority s₁)
    (hreach₂ : Reachable .priority s₂) (halike : Alike s₁ s₂) (hforks₁ : Forks s₁ p n t₁)
    (hforks₂ : Forks s₂ p n t₂) :
    (t₁.proc n).schedule = (t₂.proc n).schedule ↔
      (s₁.proc n).priority = (s₂.proc n).priority ∧ (s₁.proc n).killed = (s₂.proc n).killed := by
  rw [schedule_of_forks hreach₁ hforks₁, schedule_of_forks hreach₂ hforks₂, halike.ticks]
  simp

end Steps

/-! ## Two histories of one slot -/

instance (n : Slot) (s : State Unit) (a : Action Unit) (s' : State Unit) :
    Decidable (Unseen n s a s') := by
  apply Action.casesOn (motive := fun a => Decidable (Unseen n s a s')) a <;> intros <;>
    unfold Unseen <;> infer_instance

instance (s₁ s₂ : State Unit) : Decidable (Alike s₁ s₂) :=
  decidable_of_iff
    ((∀ p, (s₁.proc p).state = (s₂.proc p).state) ∧
      (∀ p, (s₁.proc p).state ≠ .unused → s₁.proc p = s₂.proc p) ∧ s₁.nextpid = s₂.nextpid ∧
        (∀ p, s₁.thread p = s₂.thread p) ∧ s₁.cpu () = s₂.cpu () ∧ s₁.lock = s₂.lock ∧
          s₁.ticks = s₂.ticks ∧ s₁.used = s₂.used)
    ⟨fun ⟨hstate, hproc, hnextpid, hthread, hcpu, hlock, hticks, hused⟩ =>
      ⟨hstate, hproc, hnextpid, hthread, fun _ => hcpu, hlock, hticks, hused⟩,
    fun h => ⟨h.state, h.proc, h.nextpid, h.thread, h.cpu (), h.lock, h.ticks, h.used⟩⟩

/-- A call of `fork` by `p` that nothing interrupts leads to a state that passes
the check. -/
def forksTo (s : State Unit) (p n : Slot) (check : State Unit → Bool) : Bool :=
  (step .priority s (.fork () none)).test fun s₁ =>
    decide ((s.cpu ()).ctrl = .run p ∧ firstUnused s.proc = some n) &&
      (exec (checked (step .priority) (Unseen n)) s₁
        [.kalloc () (some 3), .copyuvm () (some 4)]).test fun u =>
          decide ((u.cpu ()).ctrl = .run p ∧ (u.thread p).pc = .forkRunnable n) &&
            (step .priority u (.runnable ())).test check

theorem exists_forks {s : State Unit} {check : State Unit → Bool}
    (h : forksTo s p n check = true) : ∃ t, Forks s p n t ∧ check t = true := by
  obtain ⟨s₁, hfork, h⟩ := Outcome.test_eq_true.mp h
  obtain ⟨hbefore, h⟩ := Bool.and_eq_true_iff.mp h
  obtain ⟨hctrl, hunused⟩ := of_decide_eq_true hbefore
  obtain ⟨u, run, h⟩ := run_of_test h
  obtain ⟨hready, h⟩ := Bool.and_eq_true_iff.mp h
  obtain ⟨hctrl', hpc⟩ := of_decide_eq_true hready
  obtain ⟨t, hrunnable, hcheck⟩ := Outcome.test_eq_true.mp h
  exact ⟨t, ⟨(), (), s₁, u, hctrl, hunused, hfork, run, hctrl', hpc, hrunnable⟩, hcheck⟩

/-- The creation time that a failed `fork` leaves behind does not matter. -/
theorem fork_reuse_failedFork : ∃ s₁ s₂ t₁ t₂ : State Unit,
    (s₁.proc 1).ctime ≠ (s₂.proc 1).ctime ∧ (t₁.proc 1).state = .runnable ∧
      (t₁.proc 1).schedule = (t₂.proc 1).schedule := by
  have hrun : (exec (step .priority) (boot Unit 1 2)
      (atUser ++ [.fork () none, .kalloc () none, .tick])).test (fun s₁ =>
        (exec (step .priority) (boot Unit 1 2)
          (atUser ++ [.tick, .fork () none, .kalloc () none])).test fun s₂ =>
            decide (Alike s₁ s₂ ∧ (s₁.proc 1).ctime ≠ (s₂.proc 1).ctime ∧
              (s₁.proc 1).priority = (s₂.proc 1).priority ∧
                (s₁.proc 1).killed = (s₂.proc 1).killed) &&
            (forksTo s₁ 0 1 (fun t₁ => decide ((t₁.proc 1).state = .runnable)) &&
              forksTo s₂ 0 1 fun _ => true)) = true := by
    decide +kernel
  obtain ⟨s₁, hreaches₁, hrun⟩ := reaches_of_test hrun
  obtain ⟨s₂, hreaches₂, hrun⟩ := reaches_of_test hrun
  obtain ⟨hstates, hrun⟩ := Bool.and_eq_true_iff.mp hrun
  obtain ⟨halike, hctime, hsame⟩ := of_decide_eq_true hstates
  obtain ⟨hrun₁, hrun₂⟩ := Bool.and_eq_true_iff.mp hrun
  obtain ⟨t₁, hforks₁, hrunnable⟩ := exists_forks hrun₁
  obtain ⟨t₂, hforks₂, -⟩ := exists_forks hrun₂
  exact ⟨s₁, s₂, t₁, t₂, hctime, of_decide_eq_true hrunnable,
    (fork_reuse s₁ s₂ t₁ t₂ 0 1 ⟨1, 2, by decide, hreaches₁⟩ ⟨1, 2, by decide, hreaches₂⟩ halike
      hforks₁ hforks₂).mpr hsame⟩

/-- After `kill(0)` the next child is marked, after `kill(99)` it is not; the
states in between agree on everything but the unused slot. -/
theorem not_fork_reuse : ¬ ∀ (s₁ s₂ t₁ t₂ : State Unit) (p n : Slot),
    Reachable .priority s₁ → Reachable .priority s₂ → Alike s₁ s₂ → Forks s₁ p n t₁ →
      Forks s₂ p n t₂ → (t₁.proc n).schedule = (t₂.proc n).schedule := by
  intro h
  have hrun : (exec (step .priority) (boot Unit 1 2)
      (atUser ++ [.kill () 0, .wait ()])).test (fun s₁ =>
        (exec (step .priority) (boot Unit 1 2) (atUser ++ [.kill () 99, .wait ()])).test fun s₂ =>
          decide (Alike s₁ s₂) &&
          (forksTo s₁ 0 1 (fun t₁ => decide ((t₁.proc 1).killed = true)) &&
            forksTo s₂ 0 1 fun t₂ => decide ((t₂.proc 1).killed = false))) = true := by
    decide +kernel
  obtain ⟨s₁, hreaches₁, hrun⟩ := reaches_of_test hrun
  obtain ⟨s₂, hreaches₂, hrun⟩ := reaches_of_test hrun
  obtain ⟨halike, hrun⟩ := Bool.and_eq_true_iff.mp hrun
  obtain ⟨hrun₁, hrun₂⟩ := Bool.and_eq_true_iff.mp hrun
  obtain ⟨t₁, hforks₁, hmarked⟩ := exists_forks hrun₁
  obtain ⟨t₂, hforks₂, hunmarked⟩ := exists_forks hrun₂
  have hsame := h s₁ s₂ t₁ t₂ 0 1 ⟨1, 2, by decide, hreaches₁⟩ ⟨1, 2, by decide, hreaches₂⟩
    (of_decide_eq_true halike) hforks₁ hforks₂
  have hkilled : (t₁.proc 1).killed = (t₂.proc 1).killed :=
    congrArg (fun fields => fields.2.1) hsame
  rw [of_decide_eq_true hmarked, of_decide_eq_true hunmarked] at hkilled
  exact absurd hkilled (by decide)

end Xv6
