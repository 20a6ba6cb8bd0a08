import Xv6.Proc.Pids

/-!
# Whom `kill` kills

`kill(pid)` takes the first slot that carries the pid, whether it is in use or
not.  So it acts on a process exactly if that slot is in use (`kill_law`).  An
unused slot keeps the pid of a process whose creation failed, and has the pid 0
otherwise; `kill` of such a pid succeeds, and marks the process that gets the
slot next (`not_kill_law`).
-/

namespace Xv6

open Transition

variable {C : Type} {kernel : Kernel} {s s' : State C} {a : Action C} {c : C} {p q n : Slot}
variable {table : Ptable} {pid : ℤ}

/-! ## One call -/

/-- The process of that pid is killed and nothing else changes, or there is none
and the call fails. -/
def KillsProcess (s s' : State C) (p : Slot) (pid : ℤ) : Prop :=
  (∃ q, (s.proc q).state ≠ .unused ∧ (s.proc q).pid = pid ∧ s' = (s.setProc q Proc.kill).ret p 0) ∨
    (∀ q, (s.proc q).state ≠ .unused → (s.proc q).pid ≠ pid) ∧ s' = s.ret p (-1)

/-- The slot that the scan of `kill` finds, if any, is in use; or it is marked
already, and so is a process of that pid. -/
def FindsProcess (table : Ptable) (pid : ℤ) : Prop :=
  ∀ u, killFinds pid table = some u → (table u).state ≠ .unused ∨ (table u).killed = true ∧
    ∃ q, (table q).state ≠ .unused ∧ (table q).pid = pid ∧ (table q).killed = true ∧
      (table q).state ≠ .sleeping

instance (table : Ptable) (pid : ℤ) : Decidable (FindsProcess table pid) :=
  inferInstanceAs (Decidable (∀ _, _))

theorem Proc.kill_eq_self_iff {q : Proc} :
    q.kill = q ↔ q.killed = true ∧ q.state ≠ .sleeping := by
  constructor
  · intro h
    refine ⟨by rw [← h]; rfl, fun hsleeping => ?_⟩
    have hstate := congrArg Proc.state h
    simp [Proc.kill, hsleeping] at hstate
  · rintro ⟨hkilled, hawake⟩
    simp [Proc.kill, ← hkilled, hawake]

theorem Ptable.modify_eq_self {change : Proc → Proc} (h : change (table p) = table p) :
    table.modify p change = table := by
  unfold modify
  rw [h, Function.update_eq_self]

/-- The table and the value of `kill` are those of a process of that pid, or of a
failure. -/
theorem kill_eq_iff :
    (∃ q, (table q).state ≠ .unused ∧ (table q).pid = pid ∧
        kill pid table = (table.modify q Proc.kill, 0)) ∨
      (∀ q, (table q).state ≠ .unused → (table q).pid ≠ pid) ∧ kill pid table = (table, -1) ↔
    FindsProcess table pid := by
  unfold FindsProcess
  cases hfinds : killFinds pid table with
  | none =>
      have hnone := killFinds_eq_none_iff.mp hfinds
      have hkill : kill pid table = (table, -1) := by simp [kill, hfinds]
      simp [hkill, hnone]
  | some u =>
      obtain ⟨hpid, -⟩ := killFinds_eq_some_iff.mp hfinds
      have hkill : kill pid table = (table.modify u Proc.kill, 0) := by simp [kill, hfinds]
      simp only [hkill, Prod.mk.injEq, and_true, Option.some.injEq, forall_eq']
      by_cases hunused : (table u).state = .unused
      · constructor
        · rintro (⟨q, hused, hq, hsame⟩ | ⟨-, -, hvalue⟩)
          · -- the mark on the unused slot is not seen, and neither is one on `q`
            have hne : u ≠ q := by
              rintro rfl
              exact hused hunused
            have hu : (table u).kill = table u := by simpa [hne] using congrFun hsame u
            -- nothing else changes, so the process that is in use is as `kill` leaves it
            have hqkill : (table q).kill = table q := by
              simpa [hne.symm] using (congrFun hsame q).symm
            obtain ⟨hkilled, hawake⟩ := Proc.kill_eq_self_iff.mp hqkill
            exact Or.inr ⟨(Proc.kill_eq_self_iff.mp hu).1, q, hused, hq, hkilled, hawake⟩
          · simp at hvalue
        · rintro (hused | ⟨hkilled, q, hused, hq, hkilled', hawake⟩)
          · exact absurd hunused hused
          · refine Or.inl ⟨q, hused, hq, ?_⟩
            rw [Ptable.modify_eq_self (Proc.kill_eq_self_iff.mpr ⟨hkilled, by simp [hunused]⟩),
              Ptable.modify_eq_self (Proc.kill_eq_self_iff.mpr ⟨hkilled', hawake⟩)]
      · exact iff_of_true (Or.inl ⟨u, hunused, hpid, rfl⟩) (Or.inl hunused)

theorem ret_eq_ret_iff {table table' : Ptable} {value value' : ℤ} :
    { s with proc := table }.ret p value = { s with proc := table' }.ret p value' ↔
      (table, value) = (table', value') := by
  constructor
  · intro h
    have hvalue := congrArg (fun s : State C => (s.thread p).ret) h
    have htable : table = table' := congrArg State.proc h
    simpa [htable] using hvalue
  · intro h
    rw [(Prod.mk.inj h).1, (Prod.mk.inj h).2]

section Steps

variable [DecidableEq C]

theorem Step.kill_iff (hstep : Step kernel s (.kill c pid) s') (hctrl : (s.cpu c).ctrl = .run p) :
    KillsProcess s s' p pid ↔ FindsProcess s.proc pid := by
  cases hstep with
  | round _ _ _ _ _ _ hentry => simpa using hentry.action_eq
  | kill _ p' _ hctrl' _ _ hlock =>
      obtain rfl : p = p' := by simpa [hctrl] using hctrl'
      rw [← kill_eq_iff, ← hlock]
      refine or_congr (exists_congr fun q => and_congr_right fun _ => and_congr_right fun _ => ?_)
        (and_congr_right fun _ => ?_)
      · exact ret_eq_ret_iff
      · exact ret_eq_ret_iff

/-! ## Runs -/

/-- `n` stays in use, no `kill` names its pid, and it commits no fault. -/
def Unharmed (n : Slot) (s : State C) (a : Action C) (s' : State C) : Prop :=
  (s'.proc n).state ≠ .unused ∧
    match a with
    | .kill _ pid => pid ≠ (s.proc n).pid
    | .fault c => (s.cpu c).ctrl ≠ .run n
    | _ => True

/-- Every process is created unmarked, and stays so until it is killed itself, in
the runs whose steps are `ok`. -/
def CreatedUnkilled (C : Type) [DecidableEq C] (kernel : Kernel) (ok : State C → Action C → Prop) :
    Prop :=
  ∀ (kstack pgdir : Addr) (s : State C), kstack ≠ pgdir →
    Run (step kernel) (fun s a _ => ok s a) (boot C kstack pgdir) s →
      ∀ a s₁ n, step kernel s a = .next s₁ → (s.proc n).state = .unused →
        (s₁.proc n).state ≠ .unused →
          ∀ t, Run (step kernel) (Unharmed n) s₁ t → (t.proc n).killed = false

/-- `kill` finds a process, and no process is marked whose creation fails. -/
def Aimed (s : State C) (a : Action C) : Prop :=
  match a with
  | .kill _ pid => FindsProcess s.proc pid
  | .kalloc c none | .copyuvm c none => ∀ p np, (s.cpu c).ctrl = .run p →
      (s.thread p).pc.child = some np → (s.proc np).killed = false
  | _ => True

omit [DecidableEq C] in
theorem Life.killed_eq {q' : Proc} (h : Life kernel s a n q') (hn : (s.proc n).killed = false)
    (hkill : ∀ c pid, a = .kill c pid → killFinds pid s.proc ≠ some n)
    (hfault : ∀ c, a = .fault c → (s.cpu c).ctrl ≠ .run n) : q'.killed = false := by
  cases h with
  | killed c pid haction hfinds => exact absurd hfinds (hkill c pid haction)
  | fault c haction hctrl => exact absurd hctrl (hfault c haction)
  | exited _ x _ _ hx => rcases hx with rfl | ⟨-, rfl⟩ <;> exact hn
  | orphaned _ _ x _ _ _ hx => rcases hx with rfl | ⟨-, rfl⟩ <;> exact hn
  | reaped => rfl
  | _ => exact hn

/-- Nothing is left behind in the unused slots. -/
def UnusedUnkilled (s : State C) : Prop :=
  ∀ n, (s.proc n).state = .unused → (s.proc n).killed = false

theorem UnusedUnkilled.step (h : UnusedUnkilled s) (hinv : Inv s) (hstep : Step kernel s a s')
    (haimed : Aimed s a) : UnusedUnkilled s' := by
  intro n hn
  have hlife := hstep.life hinv n
  have hbuilt : ∀ {p : Slot}, (s.thread p).pc.child = some n → (s.proc n).state = .embryo :=
    fun {p} hp => hinv.embryo p n hp
  by_cases hunused : (s.proc n).state = .unused
  · refine hlife.killed_eq (h n hunused) ?_ ?_
    · rintro c pid rfl hfinds
      rcases haimed n hfinds with hused | ⟨hkilled, -⟩
      · exact hused hunused
      · simp [h n hunused] at hkilled
    · rintro c rfl hctrl
      simp [(hinv.run c n hctrl).2] at hunused
  · -- the slot has been reaped, or given up by `fork`
    generalize s'.proc n = q' at hlife hn
    cases hlife with
    | reaped => rfl
    | freed c p pgdir haction hctrl hchild =>
        rcases haction with rfl | rfl <;> exact haimed p n hctrl hchild
    | orphaned _ _ x _ _ _ hx =>
        rcases hx with rfl | ⟨-, rfl⟩
        · exact absurd hn hunused
        · simp [Proc.orphaned] at hn
    | killed =>
        by_cases hsleeping : (s.proc n).state = .sleeping
        · simp [Proc.kill, hsleeping] at hn
        · exact absurd (by simpa [Proc.kill, hsleeping] using hn) hunused
    | same | resumed | gaveUp | fault | listed | stacked | inherited | committed =>
        exact absurd hn hunused
    | _ => simp [allocated] at hn

theorem killed_eq_of_unharmed (run : Run (step kernel) (Unharmed n) s s') (hinv : Inv s)
    (hn : (s.proc n).killed = false) : (s'.proc n).killed = false := by
  refine hinv.run_invariant (I := fun s => (s.proc n).killed = false) run hn
    fun s a t hstep hunharmed hinv hn => ?_
  refine (hstep.life hinv n).killed_eq hn ?_ ?_
  · rintro c pid rfl hfinds
    exact hunharmed.2 (killFinds_eq_some_iff.mp hfinds).1.symm
  · rintro c rfl
    exact hunharmed.2

/-- `kill(pid)` kills the process of that pid, or fails, exactly if its scan finds
a process; and in the runs in which all calls do, and no creation of a marked
process fails, every process is created unmarked. -/
theorem kill_law (kernel : Kernel) :
    (∀ (s s' : State C) c p pid, (s.cpu c).ctrl = .run p →
      step kernel s (.kill c pid) = .next s' →
        (KillsProcess s s' p pid ↔ FindsProcess s.proc pid)) ∧
      CreatedUnkilled C kernel Aimed := by
  refine ⟨fun s s' c p pid hctrl hstep => (step_cases hstep).kill_iff hctrl, ?_⟩
  intro kstack pgdir s hne run a s₁ n hstep hunused hused t hrun
  have hinv : Inv s := (Inv.boot kstack pgdir).of_run run
  have hunkilled : UnusedUnkilled s := by
    refine (Inv.boot kstack pgdir).run_invariant run (fun n _ => ?_)
      fun _ _ _ hstep haimed hinv h => h.step hinv hstep haimed
    by_cases hn : n = initproc
    · subst hn
      simp [boot, allocated]
    · simp [boot, hn]
  have hcreated : (s₁.proc n).killed = false := by
    rcases ((step_cases hstep).life hinv n).pid_eq hinv hused with ⟨hbefore, -⟩ | ⟨-, -, hnew⟩
    · exact absurd hunused hbefore
    · rw [hnew, allocated]
      exact hunkilled n hunused
  exact killed_eq_of_unharmed hrun (hinv.step (step_cases hstep)) hcreated

end Steps

/-! ## The pid of no process -/

instance (s : State Unit) (a : Action Unit) : Decidable (Aimed s a) := by
  apply Action.casesOn (motive := fun a => Decidable (Aimed s a)) a
  case kalloc | copyuvm =>
      intro c page
      apply Option.casesOn (motive := _) page <;> intros <;> unfold Aimed <;> infer_instance
  all_goals
    intros
    unfold Aimed
    infer_instance

instance (n : Slot) (s : State Unit) (a : Action Unit) (s' : State Unit) :
    Decidable (Unharmed n s a s') := by
  apply Action.casesOn (motive := fun a => Decidable (Unharmed n s a s')) a <;> intros <;>
    unfold Unharmed <;> infer_instance

/-- The first process kills its child; the next process it creates is unmarked. -/
theorem kill_law_child : ∃ s s' t : State Unit, step .fcfs s (.kill () 2) = .next s' ∧
    KillsProcess s s' 0 2 ∧ (t.proc 2).state = .embryo ∧ (t.proc 2).killed = false := by
  obtain ⟨hkill, hcreated⟩ := kill_law (C := Unit) .fcfs
  have hrun : (exec (checked (step .fcfs) fun s a _ => Aimed s a) (boot Unit 1 2)
      (atUser ++ forks none 3 4)).test (fun s =>
        decide ((s.cpu ()).ctrl = .run 0 ∧ FindsProcess s.proc 2) &&
        (step .fcfs s (.kill () 2)).test fun s' => decide ((s'.proc 2).state = .unused) &&
          (step .fcfs s' (.fork () none)).test fun s₁ => decide ((s₁.proc 2).state ≠ .unused) &&
            (exec (checked (step .fcfs) (Unharmed 2)) s₁ [.kalloc () (some 5)]).test fun t =>
              decide ((t.proc 2).state = .embryo)) = true := by
    decide +kernel
  obtain ⟨s, run, hrun⟩ := run_of_test hrun
  obtain ⟨hbefore, hrun⟩ := Bool.and_eq_true_iff.mp hrun
  obtain ⟨hctrl, hfinds⟩ := of_decide_eq_true hbefore
  obtain ⟨s', hstep, hrun⟩ := Outcome.test_eq_true.mp hrun
  obtain ⟨hunused, hrun⟩ := Bool.and_eq_true_iff.mp hrun
  obtain ⟨s₁, hfork, hrun⟩ := Outcome.test_eq_true.mp hrun
  obtain ⟨hused, hrun⟩ := Bool.and_eq_true_iff.mp hrun
  obtain ⟨t, hlater, hembryo⟩ := run_of_test hrun
  have hlaw := (hkill s s' () 0 2 hctrl hstep).mpr hfinds
  exact ⟨s, s', t, hstep, hlaw, of_decide_eq_true hembryo,
    hcreated 1 2 s' (by decide) (run.snoc hstep hfinds) _ s₁ 2 hfork (of_decide_eq_true hunused)
      (of_decide_eq_true hused) t hlater⟩

/-- `kill(0)` succeeds when no process has the pid 0, and the next process is
created marked. -/
theorem not_kill_law :
    (¬ ∀ (s s' : State Unit) p pid, Reachable .fcfs s → (s.cpu ()).ctrl = .run p →
      step .fcfs s (.kill () pid) = .next s' → KillsProcess s s' p pid) ∧
        ¬ CreatedUnkilled Unit .fcfs fun _ _ => True := by
  have hrun : (exec (checked (step .fcfs) fun _ _ _ => True) (boot Unit 1 2)
      atUser).test (fun s =>
        decide ((s.cpu ()).ctrl = .run 0 ∧ ∀ q, (s.proc q).state ≠ .unused → (s.proc q).pid ≠ 0) &&
        (step .fcfs s (.kill () 0)).test fun s' =>
          decide ((s'.thread 0).ret = 0 ∧ (s'.proc 1).state = .unused) &&
          (step .fcfs s' (.fork () none)).test fun s₁ =>
            decide ((s₁.proc 1).state ≠ .unused ∧ (s₁.proc 1).killed = true)) = true := by
    decide +kernel
  obtain ⟨s, run, hrun⟩ := run_of_test hrun
  obtain ⟨hbefore, hrun⟩ := Bool.and_eq_true_iff.mp hrun
  obtain ⟨hctrl, hnone⟩ := of_decide_eq_true hbefore
  obtain ⟨s', hstep, hrun⟩ := Outcome.test_eq_true.mp hrun
  obtain ⟨hafter, hrun⟩ := Bool.and_eq_true_iff.mp hrun
  obtain ⟨hret, hunused⟩ := of_decide_eq_true hafter
  obtain ⟨s₁, hfork, hcreated⟩ := Outcome.test_eq_true.mp hrun
  obtain ⟨hused, hmarked⟩ := of_decide_eq_true hcreated
  constructor
  · intro h
    rcases h s s' 0 0 ⟨1, 2, by decide, run.reaches⟩ hctrl hstep with ⟨q, hq, hpid, -⟩ | ⟨-, hfails⟩
    · exact hnone q hq hpid
    · rw [hfails] at hret
      simp at hret
  · intro h
    have hkilled :=
      h 1 2 s' (by decide) (run.snoc hstep trivial) _ s₁ 1 hfork hunused hused s₁ .refl
    simp [hmarked] at hkilled

end Xv6
