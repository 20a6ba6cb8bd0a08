import Xv6.Proc.Pages
import Xv6.Proc.Pids

/-!
# Dispatch ownership

What the invariants say about a state in which `ptable.lock` is free, and why the
kernel does not panic: in a reachable state only `exit` of the first process does.
-/

namespace Xv6

open Transition

variable {C : Type} {kernel : Kernel} {s s' : State C} {a : Action C} {c : C} {p : Slot}

/-! ## While the lock is free -/

namespace Inv

theorem running_iff_of_free (h : Inv s) (hlock : s.lock = none) (p : Slot) :
    (s.proc p).state = .running ↔ ∃! c, (s.cpu c).proc = some p := by
  have hrun : ∀ c, (s.cpu c).proc = some p → (s.cpu c).ctrl = .run p := by
    intro c hproc
    cases hctrl : (s.cpu c).ctrl with
    | idle => simp [(h.idle c hctrl).1] at hproc
    | scan first => simp [(h.scan c first hctrl).1] at hproc
    | run q =>
        obtain rfl : q = p := by simpa [(h.run c q hctrl).1] using hproc
        rfl
    | back q => exact absurd hctrl (h.ne_back hlock c q)
  constructor
  · intro hrunning
    obtain ⟨c, hctrl⟩ := h.owner p hrunning
    exact ⟨c, (h.run c p hctrl).1, fun c' hproc => h.unique c' c p (hrun c' hproc) hctrl⟩
  · rintro ⟨c, hproc, -⟩
    exact (h.run c p (hrun c hproc)).2

theorem running_of_proc (h : Inv s) (hlock : s.lock = none) (hproc : (s.cpu c).proc = some p) :
    (s.proc p).state = .running := by
  cases hctrl : (s.cpu c).ctrl with
  | idle => simp [(h.idle c hctrl).1] at hproc
  | scan first => simp [(h.scan c first hctrl).1] at hproc
  | run q =>
      have hq := h.run c q hctrl
      obtain rfl : q = p := by simpa [hq.1] using hproc
      exact hq.2
  | back q => exact absurd hctrl (h.ne_back hlock c q)

end Inv

/-! ## No panic -/

namespace State

variable [DecidableEq C]

theorem acquire_safe (h : s.lock ≠ some c) : (s.acquire c).Safe := by
  unfold acquire
  split
  · simp
  · rename_i holder hholder
    have hne : holder ≠ c := fun heq => h (heq ▸ hholder)
    simp [hne]

theorem release_safe (h : s.lock = some c) : (s.release c).Safe := by
  simp [release, h]

theorem sched_safe {resume : Resume} (hlock : s.lock = some c)
    (hstate : (s.proc p).state ≠ .running) : (s.sched c p resume).Safe := by
  simp [sched, hlock, hstate]

omit [DecidableEq C] in
theorem myproc_safe : (s.myproc c).Safe := by
  unfold myproc
  split
  · split <;> simp
  · simp

omit [DecidableEq C] in
theorem procAt_safe {pc : Pc} : (s.procAt c pc).Safe := by
  refine myproc_safe.bind fun p _ => ?_
  split <;> simp

omit [DecidableEq C] in
theorem reap_safe {z : Slot} (h : (s.proc z).kstack ≠ none ∧ (s.proc z).pgdir ≠ none) :
    (s.reap z).Safe := by
  obtain ⟨kstack, hkstack⟩ := Option.ne_none_iff_exists'.mp h.1
  obtain ⟨pgdir, hpgdir⟩ := Option.ne_none_iff_exists'.mp h.2
  simp [reap, hkstack, hpgdir]

omit [DecidableEq C] in
theorem reap_lock {z : Slot} (h : s.reap z = .next s') : s'.lock = s.lock := by
  unfold reap at h
  split at h
  · simp at h
  · simp at h
  · obtain rfl := Outcome.next.inj h
    rfl

theorem giveUpOrSleep_safe (hlock : s.lock = some c) : (s.giveUpOrSleep c p).Safe := by
  unfold giveUpOrSleep
  dsimp only
  split
  · have hlock' : (s.setProc p fun q => { q with etime := s.ticks }).lock = some c := hlock
    refine (release_safe hlock').bind fun _ _ => ?_
    simp
  · exact sched_safe hlock (by simp)

theorem waitLoop_safe (hlock : s.lock = some c)
    (hzombie : ∀ z, (s.proc z).state = .zombie →
      (s.proc z).kstack ≠ none ∧ (s.proc z).pgdir ≠ none) :
    (s.waitLoop c p).Safe := by
  unfold waitLoop
  split
  · rename_i z hfinds
    have hz := hzombie z (waitFinds_eq_some_iff.mp hfinds).1.2
    refine (reap_safe hz).bind fun s₁ hreap => ?_
    refine (release_safe ((reap_lock hreap).trans hlock)).bind fun _ _ => ?_
    simp
  · exact giveUpOrSleep_safe hlock

theorem procstatLoop_safe {pid : ℤ} {pstat : Bool} (hlock : s.lock = some c)
    (hzombie : ∀ z, (s.proc z).state = .zombie →
      (s.proc z).kstack ≠ none ∧ (s.proc z).pgdir ≠ none) :
    (s.procstatLoop kernel c p pid pstat).Safe := by
  unfold procstatLoop
  split
  · rename_i z hfinds
    have hz := hzombie z (procstatFinds_eq_some_iff.mp hfinds).1.2.2
    refine (reap_safe hz).bind fun s₁ hreap => ?_
    refine (release_safe ((reap_lock hreap).trans hlock)).bind fun _ _ => ?_
    simp
  · exact giveUpOrSleep_safe hlock

end State

theorem switchuvm_safe {q : Proc} (h : q.kstack ≠ none ∧ q.pgdir ≠ none) : (switchuvm q).Safe := by
  obtain ⟨pgdir, hpgdir⟩ := Option.ne_none_iff_exists'.mp h.2
  simp [switchuvm, h.1, hpgdir]

section Steps

variable [DecidableEq C]

omit [DecidableEq C] in
/-- A thread that executes past its `resume` does not hold `ptable.lock`. -/
theorem Inv.lock_ne_of_myproc (h : Inv s) (hmyproc : s.myproc c = .next p) : s.lock ≠ some c := by
  obtain ⟨hctrl, hresume⟩ := State.myproc_eq_next.mp hmyproc
  exact fun hlock => (h.held c p hctrl).mp hlock hresume

omit [DecidableEq C] in
theorem Inv.lock_ne_of_interruptible (h : Inv s) (henabled : s.interruptible c = true) :
    s.lock ≠ some c := by
  unfold State.interruptible at henabled
  split at henabled
  · rename_i hctrl
    exact (h.idle c hctrl).2
  · rename_i p hctrl
    exact h.lock_ne_of_myproc (State.myproc_eq_next.mpr ⟨hctrl, of_decide_eq_true henabled⟩)
  · simp at henabled

/-- A system call that takes `ptable.lock` first. -/
theorem Inv.locked_safe {σ : Type} {f : Slot → State C → Outcome σ} {x : Outcome Slot} (h : Inv s)
    (hx : x = s.myproc c ∨ ∃ pc, x = s.procAt c pc)
    (hf : ∀ p s', (s.cpu c).ctrl = .run p → s' = { s with lock := some c } → (f p s').Safe) :
    (x >>= fun p => s.acquire c >>= fun s' => f p s').Safe := by
  have hmyproc : ∀ p, x = .next p → s.myproc c = .next p := by
    intro p hp
    rcases hx with rfl | ⟨pc, rfl⟩
    · exact hp
    · obtain ⟨hctrl, hresume, -⟩ := State.procAt_eq_next.mp hp
      exact State.myproc_eq_next.mpr ⟨hctrl, hresume⟩
  have hsafe : x.Safe := by
    rcases hx with rfl | ⟨pc, rfl⟩
    · exact State.myproc_safe
    · exact State.procAt_safe
  refine hsafe.bind fun p hp => ?_
  refine (State.acquire_safe (h.lock_ne_of_myproc (hmyproc p hp))).bind fun s' hacquire => ?_
  exact hf p s' (State.myproc_eq_next.mp (hmyproc p hp)).1 (State.acquire_eq_next.mp hacquire).2

theorem Inv.resume_safe (hinv : Inv s) (h : PageInv s) : (s.resume kernel c).Safe := by
  have hzombie : ∀ z, (s.proc z).state = .zombie →
      (s.proc z).kstack ≠ none ∧ (s.proc z).pgdir ≠ none :=
    fun z hz => h.live z (by rw [hz]; rfl)
  unfold State.resume
  cases hctrl : (s.cpu c).ctrl with
  | run p =>
      dsimp only
      have hheld := hinv.held c p hctrl
      cases hresume : (s.thread p).resume with
      | onCpu => simp
      -- a zombie is never switched to, so that `sched()` does not return in `exit`
      | zombie => exact absurd hresume (hinv.running p (hinv.run c p hctrl).2)
      | forkret =>
          exact (State.release_safe (hheld.mpr (by simp [hresume]))).bind fun _ _ => by simp
      | yield => exact (State.release_safe (hheld.mpr (by simp [hresume]))).bind fun _ _ => by simp
      | sleep =>
          have hlock := hheld.mpr (by simp [hresume])
          have hzombie' : ∀ z,
              ((s.proc.modify p fun q => { q with chan := none }) z).state = .zombie →
              ((s.proc.modify p fun q => { q with chan := none }) z).kstack ≠ none ∧
                ((s.proc.modify p fun q => { q with chan := none }) z).pgdir ≠ none := by
            intro z hz
            simpa using hzombie z (by simpa using hz)
          dsimp only
          split
          · exact State.waitLoop_safe hlock hzombie'
          · exact State.procstatLoop_safe hlock hzombie'
          · exact State.release_safe hlock
  | _ => simp

theorem Inv.step_safe (hinv : Inv s) (h : PageInv s) (hexit : ∀ c, a ≠ .exit c) :
    (Xv6.step kernel s a).Safe := by
  have hzombie : ∀ z, (s.proc z).state = .zombie →
      (s.proc z).kstack ≠ none ∧ (s.proc z).pgdir ≠ none :=
    fun z hz => h.live z (by rw [hz]; rfl)
  have hrunning : ∀ c p, (s.cpu c).ctrl = .run p →
      (s.proc p).kstack ≠ none ∧ (s.proc p).pgdir ≠ none :=
    fun c p hctrl => h.live p (by rw [(hinv.run c p hctrl).2]; rfl)
  cases a with
  | acquire c =>
      show (s.startPass c).Safe
      unfold State.startPass
      split
      · rename_i hctrl
        exact (State.acquire_safe (hinv.idle c hctrl).2).bind fun _ _ => by simp
      · simp
  | pick c =>
      show (s.pick kernel c).Safe
      unfold State.pick
      split
      · rename_i first hctrl
        split
        · rename_i p hchoose
          have hlive := h.live p (by rw [choose_runnable hchoose]; rfl)
          exact (switchuvm_safe hlive).bind fun _ _ => by simp
        · exact (State.release_safe (hinv.scan c first hctrl).2).bind fun _ _ => by simp
      · simp
  | back c =>
      show (s.back kernel c).Safe
      unfold State.back
      split
      · rename_i p hctrl
        have hlock :
            (s.setCpu c { ctrl := .scan (p + 1), proc := none, cr3 := none }).lock = some c :=
          (hinv.back c p hctrl).2.1
        cases kernel with
        | fcfs => exact (State.release_safe hlock).bind fun _ _ => by simp
        | priority => simp
      · simp
  | resume c => exact hinv.resume_safe h
  | yield c =>
      refine hinv.locked_safe (Or.inl rfl) fun p s' _ hs' => ?_
      subst hs'
      exact State.sched_safe rfl (by simp)
  | sleep c address =>
      refine State.myproc_safe.bind fun p hmyproc => ?_
      have hlocked : (s.acquire c >>= fun s => s.sleepOn c p (.other address)).Safe := by
        refine (State.acquire_safe (hinv.lock_ne_of_myproc hmyproc)).bind fun s' hacquire => ?_
        obtain ⟨-, rfl⟩ := State.acquire_eq_next.mp hacquire
        exact State.sched_safe rfl (by simp)
      split
      · exact hlocked
      · exact hlocked
      · exact hlocked
      · simp
  | wakeup c address =>
      show (s.wakeup c address).Safe
      unfold State.wakeup
      split
      · rename_i henabled
        have hlock := hinv.lock_ne_of_interruptible henabled
        refine (State.acquire_safe hlock).bind fun s' hacquire => ?_
        obtain ⟨-, rfl⟩ := State.acquire_eq_next.mp hacquire
        exact State.release_safe rfl
      · simp
  | tick => exact Outcome.safe_next _
  | kill c pid =>
      refine hinv.locked_safe (Or.inr ⟨.user, rfl⟩) fun p s' _ hs' => ?_
      subst hs'
      exact (State.release_safe rfl).bind fun _ _ => by simp
  | fork c priority =>
      refine State.procAt_safe.bind fun p hprocAt => ?_
      obtain ⟨hctrl, hresume, -⟩ := State.procAt_eq_next.mp hprocAt
      have hmyproc := State.myproc_eq_next.mpr ⟨hctrl, hresume⟩
      split
      · simp
      · refine (State.acquire_safe (hinv.lock_ne_of_myproc hmyproc)).bind fun s' hacquire => ?_
        obtain ⟨-, rfl⟩ := State.acquire_eq_next.mp hacquire
        dsimp only
        split
        · exact (State.release_safe rfl).bind fun _ _ => by simp
        · exact (State.release_safe rfl).bind fun _ _ => by simp
  | kalloc c page =>
      refine State.myproc_safe.bind fun p _ => ?_
      split
      · split
        · simp
        · split <;> simp
      · simp
  | copyuvm c page =>
      refine State.myproc_safe.bind fun p _ => ?_
      split
      · rename_i np priority hpc
        split
        · -- the child's kernel stack is there to be freed
          obtain ⟨kstack, hkstack⟩ := Option.ne_none_iff_exists'.mp
            (h.stacked p np (by rw [hpc]; rfl) (by rw [hpc]; trivial))
          simp [hkstack]
        · split <;> simp
      · simp
  | runnable c =>
      refine State.myproc_safe.bind fun p hmyproc => ?_
      split
      · refine (State.acquire_safe (hinv.lock_ne_of_myproc hmyproc)).bind fun s' hacquire => ?_
        obtain ⟨-, rfl⟩ := State.acquire_eq_next.mp hacquire
        exact (State.release_safe rfl).bind fun _ _ => by simp
      · simp
  | exit c => exact absurd rfl (hexit c)
  | zombie c =>
      refine hinv.locked_safe (Or.inr ⟨.exit, rfl⟩) fun p s' _ hs' => ?_
      subst hs'
      obtain ⟨x, -, hself⟩ := exitTable_self p s.ticks s.proc
      exact State.sched_safe rfl (by simp [hself])
  | wait c =>
      refine hinv.locked_safe (Or.inr ⟨.user, rfl⟩) fun p s' _ hs' => ?_
      subst hs'
      exact State.waitLoop_safe rfl hzombie
  | procstat c pid pstat =>
      refine hinv.locked_safe (Or.inr ⟨.user, rfl⟩) fun p s' _ hs' => ?_
      subst hs'
      exact State.procstatLoop_safe rfl hzombie
  | ps c =>
      refine hinv.locked_safe (Or.inr ⟨.user, rfl⟩) fun p s' _ hs' => ?_
      subst hs'
      exact (State.release_safe rfl).bind fun _ _ => by simp
  | exec c page =>
      refine State.procAt_safe.bind fun p _ => ?_
      split <;> simp
  | execBad c =>
      refine State.myproc_safe.bind fun p _ => ?_
      split <;> simp
  | execCommit c =>
      refine State.myproc_safe.bind fun p _ => ?_
      split <;> simp
  | execSwitch c =>
      refine State.myproc_safe.bind fun p hmyproc => ?_
      split
      · have hlive := hrunning c p (State.myproc_eq_next.mp hmyproc).1
        have hreload : (s.reload c p).Safe := (switchuvm_safe hlive).bind fun _ _ => by simp
        exact hreload.bind fun _ _ => by simp
      · simp
  | execFree c =>
      refine State.myproc_safe.bind fun p _ => ?_
      split
      · -- the old page directory that `freevm` gets is not null
        rename_i hpc
        exact absurd hpc (h.old p).2
      · simp
      · simp
  | growproc c =>
      refine State.procAt_safe.bind fun p hprocAt => ?_
      have hlive := hrunning c p (State.procAt_eq_next.mp hprocAt).1
      exact (switchuvm_safe hlive).bind fun _ _ => by simp
  | fault c =>
      refine State.procAt_safe.bind fun p _ => ?_
      simp

/-- The only panic that a reachable state can run into. -/
theorem Inv.panic_eq (hinv : Inv s) (h : PageInv s) {message : String}
    (hpanic : Xv6.step kernel s a = .panic message) : message = "init exiting" := by
  by_cases hexit : ∃ c, a = .exit c
  · obtain ⟨c, rfl⟩ := hexit
    rcases Outcome.bind_eq_panic.mp hpanic with hpanic | ⟨p, -, hpanic⟩
    · exact absurd hpanic (State.procAt_safe message)
    · split at hpanic
      · exact (Outcome.panic.inj hpanic).symm
      · simp at hpanic
  · exact absurd hpanic (hinv.step_safe h (fun c hc => hexit ⟨c, hc⟩) message)

/-! ## In every reachable state -/

/-- What holds of the table and the CPUs while `ptable.lock` is free. -/
structure Ownership (s : State C) : Prop where
  pid_pos : ∀ p, (s.proc p).state ≠ .unused → 0 < (s.proc p).pid
  pid_distinct : ∀ p q, (s.proc p).state ≠ .unused → (s.proc q).state ≠ .unused →
    (s.proc p).pid = (s.proc q).pid → p = q
  running_iff : ∀ p, (s.proc p).state = .running ↔ ∃! c, (s.cpu c).proc = some p
  on_cpu : ∀ c p, (s.cpu c).proc = some p →
    (s.proc p).state ≠ .unused ∧ (s.proc p).state ≠ .embryo ∧ (s.proc p).state ≠ .zombie
  mapped : ∀ p, (s.proc p).state = .runnable ∨ (s.proc p).state = .running ∨
    (s.proc p).state = .sleeping ∨ (s.proc p).state = .zombie →
      (s.proc p).kstack ≠ none ∧ (s.proc p).pgdir ≠ none

/-- `nextpid ≤ 2 ^ 31` says that fewer than `2 ^ 31` processes have been created. -/
theorem dispatch_ownership (hreach : Reachable kernel s) (hcreations : s.nextpid ≤ 2 ^ 31) :
    (s.lock = none → Ownership s) ∧
      (∀ a message, step kernel s a = .panic message → message = "init exiting") ∧
      (∀ c x, s.Uses c x → x ∈ s.used) ∧
      ∀ a s' x, step kernel s a = .next s' → x ∈ s.used → x ∉ s'.used →
        ∀ c, ¬ s.Uses c x ∧ ¬ s'.Uses c x := by
  have hinv := Inv.of_reachable hreach
  have hpages := PageInv.of_reachable hreach
  have hpids := (PidInv.of_reachable hreach).pids hcreations
  refine ⟨fun hlock => ?_, fun a message hpanic => hinv.panic_eq hpages hpanic,
    fun c x huses => hinv.mem_used_of_uses hpages huses, fun a s' x hstep hx hx' c => ⟨?_, ?_⟩⟩
  · constructor
    case pid_pos => exact fun p hp => (hpids.bounds p hp).1
    case pid_distinct => exact hpids.distinct
    case running_iff => exact hinv.running_iff_of_free hlock
    case on_cpu =>
      intro c p hproc
      simp [hinv.running_of_proc hlock hproc]
    case mapped =>
      intro p hp
      refine hpages.live p ?_
      rcases hp with hp | hp | hp | hp <;> rw [hp] <;> rfl
  · exact (step_cases hstep).not_uses_of_freed hinv hpages hx hx'
  · have hinv' := hinv.step (step_cases hstep)
    have hpages' := hpages.step hinv (step_cases hstep)
    exact fun huses => hx' (hinv'.mem_used_of_uses hpages' huses)

/-- The first process on one of two CPUs. -/
theorem dispatch_ownership_init : ∃ s : State Bool, s.nextpid ≤ 2 ^ 31 ∧
    (s.proc initproc).state = .running ∧ Ownership s := by
  have hrun : (exec (step .fcfs) (boot Bool 1 2) [.acquire true, .pick true, .resume true]).test
      (fun s => decide (s.nextpid ≤ 2 ^ 31 ∧ s.lock = none ∧
        (s.proc initproc).state = .running)) = true := by
    decide +kernel
  obtain ⟨s, hreaches, hs⟩ := reaches_of_test hrun
  obtain ⟨hcreations, hlock, hrunning⟩ := of_decide_eq_true hs
  have hreach : Reachable .fcfs s := ⟨1, 2, by decide, hreaches⟩
  exact ⟨s, hcreations, hrunning, (dispatch_ownership hreach hcreations).1 hlock⟩

end Steps

end Xv6
