import Xv6.Proc.Lifecycle

/-!
# Whom `procstat` waits for

A process that has gone to sleep in `procstat(pid)` wakes up again only for its
children.  If one of them has that pid it will be reaped, and stays a child until
then.  If none has, the call should fail at once; `procstat` fails only if the
caller has no children at all or has been killed (`procstat_waits`), because it
notes that there is a child before it compares the pid.
-/

namespace Xv6

open Transition

variable {C : Type} {kernel : Kernel} {s s' : State C} {a : Action C} {c : C} {p q : Slot}

/-! ## Children -/

/-- `q` is a child of `p`: `fork` has finished it, and it has not been reaped. -/
def Child (table : Ptable) (p q : Slot) : Prop :=
  (table q).parent = some p ∧ (table q).state ≠ .unused ∧ (table q).state ≠ .embryo

def HasChild (table : Ptable) (p : Slot) (pid : ℤ) : Prop :=
  ∃ q, Child table p q ∧ (table q).pid = pid

instance (table : Ptable) (p : Slot) : DecidablePred (Child table p) :=
  fun _ => inferInstanceAs (Decidable (_ ∧ _))

instance (table : Ptable) (p : Slot) (pid : ℤ) : Decidable (HasChild table p pid) :=
  inferInstanceAs (Decidable (∃ _, _))

section Steps

variable [DecidableEq C]

/-- A thread waits where it waited before, or has just made the request. -/
theorem Step.pc_of_waiting (hstep : Step kernel s a s') (hwaiting : (s'.thread p).pc.waiting) :
    (s'.thread p).pc = (s.thread p).pc ∨
      ∃ c, (s.cpu c).ctrl = .run p ∧ (s'.thread p).pc.call c a := by
  have hadvance := hstep.advance p
  generalize (s'.thread p).pc = pc at hadvance hwaiting
  cases hadvance with
  | same => exact Or.inl rfl
  | request c request hcall hctrl => exact Or.inr ⟨c, hctrl, hcall⟩
  | _ => simp [Pc.waiting] at hwaiting

theorem Step.pc_of_zombie (hstep : Step kernel s (.zombie c) s')
    (hctrl : (s.cpu c).ctrl = .run p) : (s'.thread p).pc = .exit := by
  cases hstep with
  | round _ _ _ _ _ _ hentry => simpa using hentry.action_eq
  | zombie _ p' hctrl' hresume hpc =>
      obtain rfl : p = p' := by simpa [hctrl] using hctrl'
      simp [hpc]

/-- The children of a process that waits stay its children. -/
theorem Step.child (hinv : Inv s) (hstep : Step kernel s a s') (hchild : Child s.proc p q)
    (hwaiting : (s'.thread p).pc.waiting) :
    Child s'.proc p q ∧ (s'.proc q).pid = (s.proc q).pid := by
  obtain ⟨hparent, hused, hembryo⟩ := hchild
  have hbuilt : ∀ {r : Slot}, (s.thread r).pc.child ≠ some q :=
    fun {r} hr => hembryo (hinv.embryo r q hr)
  have hexit : ∀ {c : C} {cur : Slot}, a = .zombie c → (s.cpu c).ctrl = .run cur → p ≠ cur := by
    rintro c cur rfl hctrl rfl
    simp [hstep.pc_of_zombie hctrl, Pc.waiting] at hwaiting
  -- `exit` of another process leaves the parent of `q` alone
  have hkept : ∀ {x : Proc} {cur : Slot}, p ≠ cur → (s.proc q).Wakes x →
      (x.orphaned cur).parent = some p ∧ x.pid = (s.proc q).pid := by
    intro x cur hne hx
    have hne : some p ≠ some cur := by simpa using hne
    rcases hx with rfl | ⟨-, rfl⟩ <;> simp [Proc.orphaned, hparent, hne]
  unfold Child
  have hlife := hstep.life hinv q
  generalize hq' : s'.proc q = q' at hlife
  cases hlife with
  | exited c x haction hctrl hx =>
      obtain ⟨hparent', hpid⟩ := hkept (hexit haction hctrl) hx
      exact ⟨⟨hparent', by simp, by simp⟩, hpid⟩
  | orphaned c cur x haction hctrl hne hx =>
      obtain ⟨hparent', hpid⟩ := hkept (hexit haction hctrl) hx
      refine ⟨⟨hparent', ?_⟩, hpid⟩
      rcases hx with rfl | ⟨-, rfl⟩
      · exact ⟨hused, hembryo⟩
      · simp [Proc.orphaned]
  | killed =>
      refine ⟨⟨hparent, ?_⟩, rfl⟩
      by_cases hsleeping : (s.proc q).state = .sleeping
      · simp [Proc.kill, hsleeping]
      · simp [Proc.kill, hsleeping, hused, hembryo]
  | allocated _ _ _ hunused => exact absurd (find?_slots_eq_some_iff.mp hunused).1 hused
  | stacked _ _ _ _ _ hr => exact absurd hr hbuilt
  | inherited _ r _ _ _ _ hpc => exact absurd (by rw [hpc]; rfl) (hbuilt (r := r))
  | started _ r _ _ hpc => exact absurd (by rw [hpc]; rfl) (hbuilt (r := r))
  | freed _ _ _ _ _ hr => exact absurd hr hbuilt
  | reaped c r request hrequest haction hctrl hzombie hparent' =>
      -- `p` itself has reaped `q`, and so does not wait any more
      obtain rfl : p = r := by simpa [hparent] using hparent'
      obtain ⟨scanning, hentry, hround⟩ := hstep.exists_round hinv hctrl request hrequest haction
      cases hround with
      | reaped => cases request <;> simp [answered, Pc.waiting] at hwaiting
      | gaveUp => simp [Pc.waiting] at hwaiting
      | slept =>
          have hqp : q ≠ p := by
            rintro rfl
            simp [(hinv.run c q hctrl).2] at hzombie
          have hstate := congrArg Proc.state hq'
          simp [hqp, hentry.proc_of_ne hqp, hzombie, Proc.reaped] at hstate
  | same | resumed | gaveUp | fault | listed | committed => exact ⟨⟨hparent, hused, hembryo⟩, rfl⟩
  | _ => exact ⟨⟨hparent, by simp, by simp⟩, rfl⟩

/-! ## The calls of `procstat` -/

/-- The call of `p` has returned `-1`, and `p` still has its CPU. -/
def Fails (s : State C) (c : C) (p : Slot) : Prop :=
  (s.cpu c).ctrl = .run p ∧ (s.thread p).pc = .user ∧ (s.thread p).ret = -1

/-- No process sleeps in `procstat(pid)` that has no child of that pid, in the
runs whose steps are `ok`. -/
def WaitsForChild (C : Type) [DecidableEq C] (kernel : Kernel) (ok : State C → Action C → Prop) :
    Prop :=
  ∀ (kstack pgdir : Addr) (s : State C), kstack ≠ pgdir →
    Run (step kernel) (fun s a _ => ok s a) (boot C kstack pgdir) s →
      ∀ p pid pstat, (s.thread p).pc = .procstat pid pstat → (s.proc p).state = .sleeping →
        HasChild s.proc p pid

/-- A call of `procstat` names a child, or is made by a process that has no
children or has been killed. -/
def Sensible (s : State C) (a : Action C) : Prop :=
  match a with
  | .procstat c pid _ => ∀ p, (s.cpu c).ctrl = .run p →
      HasChild s.proc p pid ∨ (∀ q, (s.proc q).parent ≠ some p) ∨ (s.proc p).killed = true
  | _ => True

theorem havekids_eq_false_iff {table : Ptable} :
    havekids table p = false ↔ ∀ q, (table q).parent ≠ some p := by
  simp [havekids, mem_slots]

theorem hasChild_of_procstatFinds {table : Ptable} {pid : ℤ} {z : Slot}
    (h : procstatFinds table p pid = some z) : HasChild table p pid := by
  obtain ⟨hparent, hpid, hzombie⟩ := (procstatFinds_eq_some_iff.mp h).1
  exact ⟨z, ⟨hparent, by simp [hzombie], by simp [hzombie]⟩, hpid⟩

/-- A call of `procstat` that does not find a zombie. -/
theorem Step.procstat_cases (hinv : Inv s) {pid : ℤ} {pstat : Bool}
    (hstep : Step kernel s (.procstat c pid pstat) s') (hctrl : (s.cpu c).ctrl = .run p)
    (hnone : procstatFinds s.proc p pid = none) :
    Fails s' c p ∧ ((∀ q, (s.proc q).parent ≠ some p) ∨ (s.proc p).killed = true) ∨
      ¬ Fails s' c p ∧ (∃ q, (s.proc q).parent = some p) ∧ (s.proc p).killed = false := by
  obtain ⟨scanning, hentry, hround⟩ :=
    hstep.exists_round hinv hctrl (.procstat pid pstat) trivial (Or.inl rfl)
  cases hentry with
  | call _ _ hctrl' =>
      cases hround with
      | reaped z _ _ hfinds =>
          have hfinds : procstatFinds s.proc p pid = some z := hfinds
          simp [hnone] at hfinds
      | gaveUp _ hcannot =>
          refine Or.inl ⟨⟨hctrl, by simp, by simp⟩, ?_⟩
          rcases hcannot with hkids | hkilled
          · exact Or.inl (havekids_eq_false_iff.mp hkids)
          · exact Or.inr hkilled
      | slept _ hkids hkilled =>
          refine Or.inr ⟨fun hfails => ?_, ?_, hkilled⟩
          · simp [Fails] at hfails
          · by_contra hnot
            have hnokids : havekids s.proc p = false :=
              havekids_eq_false_iff.mpr (by simpa using hnot)
            exact Bool.false_ne_true (hnokids.symm.trans hkids)

/-- A thread in `procstat(pid)` has a child of that pid. -/
def Expecting (s : State C) : Prop :=
  ∀ p pid pstat, (s.thread p).pc = .procstat pid pstat → HasChild s.proc p pid

theorem Expecting.step (h : Expecting s) (hinv : Inv s) (hstep : Step kernel s a s')
    (hok : Sensible s a) : Expecting s' := by
  intro p pid pstat hpc
  have hwaiting : (s'.thread p).pc.waiting := by
    rw [hpc]
    trivial
  have hkept : HasChild s.proc p pid → HasChild s'.proc p pid := by
    rintro ⟨q, hchild, hpid⟩
    obtain ⟨hchild', hpid'⟩ := hstep.child hinv hchild hwaiting
    exact ⟨q, hchild', hpid'.trans hpid⟩
  rcases hstep.pc_of_waiting hwaiting with hsame | ⟨c, hctrl, hcall⟩
  · exact hkept (h p pid pstat (hsame.symm.trans hpc))
  · rw [hpc] at hcall
    obtain rfl : a = .procstat c pid pstat := hcall
    rcases hok p hctrl with hchild | halone
    · exact hkept hchild
    · cases hfinds : procstatFinds s.proc p pid with
      | some z => exact hkept (hasChild_of_procstatFinds hfinds)
      | none =>
          rcases hstep.procstat_cases hinv hctrl hfinds with ⟨hfails, -⟩ | ⟨-, ⟨q, hq⟩, hkilled⟩
          · simp [hfails.2.1] at hpc
          · rcases halone with hnone | hkilled'
            · exact absurd hq (hnone q)
            · simp [hkilled] at hkilled'

/-- A call of `procstat` for a pid of no child fails at once exactly if the caller
has no children at all or has been killed; and nobody sleeps in `procstat` in
vain if all calls are made sensibly. -/
theorem procstat_waits (kernel : Kernel) :
    (∀ (s s' : State C) c p pid pstat, Reachable kernel s → (s.cpu c).ctrl = .run p →
      step kernel s (.procstat c pid pstat) = .next s' → ¬ HasChild s.proc p pid →
        (Fails s' c p ↔ (∀ q, (s.proc q).parent ≠ some p) ∨ (s.proc p).killed = true)) ∧
      WaitsForChild C kernel Sensible := by
  constructor
  · intro s s' c p pid pstat hreach hctrl hstep hnot
    have hnone : procstatFinds s.proc p pid = none :=
      Option.eq_none_iff_forall_ne_some.mpr fun z hz => hnot (hasChild_of_procstatFinds hz)
    rcases (step_cases hstep).procstat_cases (Inv.of_reachable hreach) hctrl hnone with
      ⟨hfails, halone⟩ | ⟨hfails, ⟨q, hq⟩, hkilled⟩
    · exact iff_of_true hfails halone
    · refine iff_of_false hfails ?_
      rintro (hnone | hkilled')
      · exact hnone q hq
      · simp [hkilled] at hkilled'
  · intro kstack pgdir s hne run p pid pstat hpc _
    have hboot : Expecting (boot C kstack pgdir) := by
      intro p pid pstat hpc
      simp [boot] at hpc
    have hexpecting : Expecting s := (Inv.boot kstack pgdir).run_invariant run hboot
      fun _ _ _ hstep hok hinv h => h.step hinv hstep hok
    exact hexpecting p pid pstat hpc

end Steps

/-! ## A parent that asks for a stranger -/

instance (s : State Unit) (a : Action Unit) : Decidable (Sensible s a) := by
  cases a <;> unfold Sensible <;> infer_instance

/-- The first process with its child. -/
def forksOnce : List (Action Unit) :=
  atUser ++ forks none 3 4

/-- Without children the first process fails; with one it waits for that child. -/
theorem procstat_waits_forksOnce : ∃ s s₁ t : State Unit,
    step .priority s (.procstat () 99 true) = .next s₁ ∧ Fails s₁ () 0 ∧
      (t.proc 0).state = .sleeping ∧ HasChild t.proc 0 2 := by
  obtain ⟨hfails, hwaits⟩ := procstat_waits (C := Unit) .priority
  have hrun : (exec (step .priority) (boot Unit 1 2) (forksOnce.take 3)).test (fun s =>
      decide ((s.cpu ()).ctrl = .run 0 ∧ ¬ HasChild s.proc 0 99 ∧
        ∀ q, (s.proc q).parent ≠ some 0) &&
        (step .priority s (.procstat () 99 true)).test fun _ => true) = true := by
    decide +kernel
  obtain ⟨s, hreaches, hrun⟩ := reaches_of_test hrun
  obtain ⟨hbefore, hrun⟩ := Bool.and_eq_true_iff.mp hrun
  obtain ⟨hctrl, hnot, halone⟩ := of_decide_eq_true hbefore
  obtain ⟨s₁, hstep, -⟩ := Outcome.test_eq_true.mp hrun
  have hrun' : (exec (checked (step .priority) fun s a _ => Sensible s a) (boot Unit 1 2)
      (forksOnce ++ [.procstat () 2 true])).test (fun t =>
        decide ((t.thread 0).pc = .procstat 2 true ∧ (t.proc 0).state = .sleeping)) = true := by
    decide +kernel
  obtain ⟨t, run, hrun'⟩ := run_of_test hrun'
  obtain ⟨hpc, hsleeping⟩ := of_decide_eq_true hrun'
  have hreach : Reachable .priority s := ⟨1, 2, by decide, hreaches⟩
  exact ⟨s, s₁, t, hstep, (hfails s s₁ () 0 99 true hreach hctrl hstep hnot).mpr (Or.inl halone),
    hsleeping, hwaits 1 2 t (by decide) run 0 2 true hpc hsleeping⟩

/-- A parent that asks for a pid that no process has sleeps all the same. -/
theorem not_waitsForChild : ¬ WaitsForChild Unit .priority fun _ _ => True := by
  intro h
  have hrun : (exec (checked (step .priority) fun _ _ _ => True) (boot Unit 1 2)
      (forksOnce ++ [.procstat () 99 true])).test (fun t =>
        decide ((t.thread 0).pc = .procstat 99 true ∧ (t.proc 0).state = .sleeping ∧
          ¬ HasChild t.proc 0 99)) = true := by
    decide +kernel
  obtain ⟨t, run, hrun⟩ := run_of_test hrun
  obtain ⟨hpc, hsleeping, hnot⟩ := of_decide_eq_true hrun
  exact hnot (h 1 2 t (by decide) run 0 99 true hpc hsleeping)

end Xv6
