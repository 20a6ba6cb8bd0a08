import Xv6.Proc.Scheduler
import Xv6.Proc.Ownership

/-!
# The scheduler of the FCFS kernel

A dispatch is of the `RUNNABLE` process that comes first in the order `Precedes`:
creation time as a signed `int`, then slot.  From this follows that later
arrivals do not preempt (`fcfs_nonpreemptive`).

Precedence is the order of creation as long as every process is created behind
all those it could overtake (`CreatedLast`); `fcfs_dispatch` says exactly when
the process dispatched is the oldest.  Slots are reused within one tick, and the
tick counter wraps to the negative numbers, so that it need not be (`not_fcfs`).
-/

namespace Xv6

open Transition

variable {C : Type} {kernel : Kernel} {s s' t : State C} {a : Action C} {c : C} {p q : Slot}

/-! ## The order of the queue -/

/-- `p` was created in an earlier tick than `q`, or in the same one and sits in a
lower slot. -/
def Precedes (table : Ptable) (p q : Slot) : Prop :=
  (table p).ctime.toInt < (table q).ctime.toInt ∨
    (table p).ctime.toInt = (table q).ctime.toInt ∧ p < q

instance (table : Ptable) (p q : Slot) : Decidable (Precedes table p q) :=
  inferInstanceAs (Decidable (_ ∨ _))

theorem precedes_iff {table : Ptable} :
    Precedes table p q ↔
      Scan.rank (fun p => (table p).ctime.toInt) p <
        Scan.rank (fun p => (table p).ctime.toInt) q := by
  unfold Precedes
  rw [Scan.rank_lt_iff]

theorem precedes_or {table : Ptable} (h : p ≠ q) : Precedes table p q ∨ Precedes table q p := by
  simp only [precedes_iff]
  exact lt_or_gt_of_ne (Scan.rank_injective.ne h)

theorem Precedes.asymm {table : Ptable} (h : Precedes table p q) : ¬ Precedes table q p := by
  rw [precedes_iff] at *
  exact lt_asymm h

/-- Whether one process precedes another depends on their creation times only. -/
theorem Precedes.congr {table table' : Ptable} (hp : (table' p).ctime = (table p).ctime)
    (hq : (table' q).ctime = (table q).ctime) : Precedes table' p q ↔ Precedes table p q := by
  unfold Precedes
  rw [hp, hq]

/-- The FCFS scheduler picks the `RUNNABLE` process that precedes all others. -/
theorem choose_fcfs_iff {table : Ptable} {first : ℕ} :
    State.choose .fcfs table first = some p ↔ (table p).state = .runnable ∧
      ∀ q, (table q).state = .runnable → q ≠ p → Precedes table p q := by
  refine minP_eq_some_iff.trans (and_congr_right fun _ => forall₂_congr fun q _ => ?_)
  rw [precedes_iff]
  constructor
  · intro hle hne
    exact lt_of_le_of_ne hle (Scan.rank_injective.ne hne.symm)
  · intro h
    by_cases hq : q = p
    · rw [hq]
    · exact (h hq).le

/-! ## First come, first served -/

/-- The oldest `RUNNABLE` process, by its pid, precedes the others. -/
def OldestFirst (table : Ptable) : Prop :=
  ∃ o, (table o).state = .runnable ∧
    ∀ q, (table q).state = .runnable → q ≠ o → (table o).pid ≤ (table q).pid ∧ Precedes table o q

/-- A process created now gets an id that fits an `int`, and comes behind every
process that is or may become `RUNNABLE`. -/
def CreatedLast (s : State C) : Prop :=
  s.nextpid < 2 ^ 31 ∧ ∀ np, firstUnused s.proc = some np → ∀ q,
    (s.proc q).state ≠ .unused → (s.proc q).state ≠ .zombie →
      (s.proc q).ctime.toInt < s.ticks.toInt ∨
        (s.proc q).ctime.toInt = s.ticks.toInt ∧ q < np

instance (s : State C) : Decidable (CreatedLast s) :=
  inferInstanceAs (Decidable (_ ∧ ∀ _, _))

instance (a : Action C) : Decidable (∃ c priority, a = .fork c priority) :=
  match a with
  | .fork c priority => isTrue ⟨c, priority, rfl⟩
  | .acquire _ | .pick _ | .back _ | .resume _ | .yield _ | .sleep _ _ | .wakeup _ _ | .tick
  | .kill _ _ | .kalloc _ _ | .copyuvm _ _ | .runnable _ | .exit _ | .zombie _ | .wait _
  | .procstat _ _ _ | .ps _ | .exec _ _ | .execBad _ | .execCommit _ | .execSwitch _
  | .execFree _ | .growproc _ | .fault _ => isFalse (by simp)

/-- The processes precede each other in the order of their ids. -/
structure InOrder (s : State C) : Prop where
  bound : s.nextpid ≤ 2 ^ 31
  order : ∀ p q, (s.proc p).state ≠ .unused → (s.proc p).state ≠ .zombie →
    (s.proc q).state ≠ .unused → (s.proc q).state ≠ .zombie →
      (s.proc p).pid < (s.proc q).pid → Precedes s.proc p q

section Dispatch

variable [DecidableEq C]

theorem choose_of_dispatches (hstep : Step kernel s a s') (hdispatch : Dispatches s s' c p) :
    ∃ first, State.choose kernel s.proc first = some p := by
  obtain ⟨-, first, -, -, hchoose, -⟩ := hstep.of_dispatches hdispatch
  exact ⟨first, hchoose⟩

theorem pid_le_iff_oldestFirst (hstep : Step .fcfs s a s') (hdispatch : Dispatches s s' c p) :
    (∀ q, (s.proc q).state = .runnable → (s.proc p).pid ≤ (s.proc q).pid) ↔
      OldestFirst s.proc := by
  obtain ⟨first, hchoose⟩ := choose_of_dispatches hstep hdispatch
  obtain ⟨hrunnable, hfirst⟩ := choose_fcfs_iff.mp hchoose
  constructor
  · intro hpid
    exact ⟨p, hrunnable, fun q hq hne => ⟨hpid q hq, hfirst q hq hne⟩⟩
  · rintro ⟨o, ho, hoFirst⟩ q hq
    have hpo : p = o := by
      by_contra hne
      exact (hfirst o ho (Ne.symm hne)).asymm (hoFirst p hrunnable hne).2
    subst hpo
    by_cases hqp : q = p
    · rw [hqp]
    · exact (hoFirst q hq hqp).1

/-- Creating every process behind the others keeps them in order. -/
theorem InOrder.step (h : InOrder s) (hinv : Inv s) (hpids : PidInv s) (hstep : Step kernel s a s')
    (hcreated : (∃ c priority, a = .fork c priority) → CreatedLast s) : InOrder s' := by
  have hbound : s'.nextpid ≤ 2 ^ 31 := by
    rcases hstep.nextpid_eq with ⟨heq, -⟩ | ⟨hfork, heq⟩
    · exact heq.trans_le h.bound
    · have hlt := (hcreated hfork).1
      omega
  -- a process was there before, or has just been created
  have hcases : ∀ n, (s'.proc n).state ≠ .unused → (s'.proc n).state ≠ .zombie →
      ((s.proc n).state ≠ .unused ∧ (s.proc n).state ≠ .zombie ∧
        (s'.proc n).pid = (s.proc n).pid ∧ (s'.proc n).ctime = (s.proc n).ctime) ∨
      (CreatedLast s ∧ firstUnused s.proc = some n ∧ (s'.proc n).pid = s.nextpid ∧
        (s'.proc n).ctime = s.ticks) := by
    intro n hn hzombie
    have hlife := hstep.life hinv n
    rcases hlife.pid_eq hinv hn with ⟨hbefore, hpid⟩ | ⟨hfork, hunused, heq⟩
    · refine Or.inl ⟨hbefore, fun hz => ?_, hpid, hlife.ctime_eq hbefore⟩
      rcases hstep.zombie_or_unused hinv hz with hz' | hz'
      · exact hzombie hz'
      · exact hn hz'
    · have hlast := hcreated hfork
      have hpid : (s'.proc n).pid = toInt s.nextpid := by rw [heq, allocated]
      exact Or.inr ⟨hlast, hunused, by rw [hpid, toInt_of_le hlast.1], by rw [heq, allocated]⟩
  refine ⟨hbound, fun p q hp hp' hq hq' hless => ?_⟩
  rcases hcases p hp hp' with ⟨hp, hp', hpid, hctime⟩ | ⟨-, hpnew, hpid, -⟩ <;>
    rcases hcases q hq hq' with ⟨hq, hq', hpid', hctime'⟩ | ⟨hlast, hqnew, hpid', hctime'⟩
  · exact (Precedes.congr hctime hctime').mpr (h.order p q hp hp' hq hq' (by omega))
  · -- `q` is new, and was created behind `p`
    have hbehind := hlast.2 q hqnew p hp hp'
    unfold Precedes
    rw [hctime, hctime']
    exact hbehind
  · -- `p` is new, and its id is not below that of `q`
    have hbelow := ((hpids.pids h.bound).bounds q hq).2
    omega
  · omega

omit [DecidableEq C] in
theorem InOrder.boot (kstack pgdir : Addr) : InOrder (boot C kstack pgdir) := by
  refine ⟨by simp [Xv6.boot], fun p q hp _ hq _ hless => ?_⟩
  have hinit : ∀ p, ((Xv6.boot C kstack pgdir).proc p).state ≠ .unused → p = initproc := by
    intro p hp
    by_contra hne
    simp [Xv6.boot, hne] at hp
  rw [hinit p hp, hinit q hq] at hless
  exact absurd hless (lt_irrefl _)

/-- Exactly when a dispatch is of the oldest `RUNNABLE` process; and that every
dispatch is, in a run in which every process is created last. -/
theorem fcfs_dispatch :
    (∀ (s s' : State C) a c p, step .fcfs s a = .next s' → Dispatches s s' c p →
      ((∀ q, (s.proc q).state = .runnable → (s.proc p).pid ≤ (s.proc q).pid) ↔
        OldestFirst s.proc)) ∧
    ∀ (kstack pgdir : Addr) (s : State C), kstack ≠ pgdir →
      Run (step .fcfs) (fun s a _ => (∃ c priority, a = .fork c priority) → CreatedLast s)
        (boot C kstack pgdir) s →
      ∀ s' a c p, step .fcfs s a = .next s' → Dispatches s s' c p →
        ∀ q, (s.proc q).state = .runnable → (s.proc p).pid ≤ (s.proc q).pid := by
  refine ⟨fun s s' a c p hstep hdispatch => pid_le_iff_oldestFirst (step_cases hstep) hdispatch,
    fun kstack pgdir s hne run s' a c p hstep hdispatch q hq => ?_⟩
  have horder : InOrder s := by
    have hboth : PidInv s ∧ InOrder s := (Inv.boot kstack pgdir).run_invariant
      (I := fun s => PidInv s ∧ InOrder s) run
      ⟨PidInv.boot kstack pgdir, InOrder.boot kstack pgdir⟩
      fun s a t hstep hguard hinv h => ⟨h.1.step hinv hstep, h.2.step hinv h.1 hstep hguard⟩
    exact hboth.2
  obtain ⟨first, hchoose⟩ := choose_of_dispatches (step_cases hstep) hdispatch
  obtain ⟨hp, hfirst⟩ := choose_fcfs_iff.mp hchoose
  by_contra hless
  have hqp : q ≠ p := by
    rintro rfl
    exact hless le_rfl
  have hprecedes := horder.order q p (by simp [hq]) (by simp [hq]) (by simp [hp]) (by simp [hp])
    (not_le.mp hless)
  exact (hfirst q hq hqp).asymm hprecedes

end Dispatch

/-- The first process makes a child and goes on. -/
def oneChild : List (Action Unit) :=
  atUser ++ forks none 3 4 ++ [.yield (), .back (), .acquire ()]

/-- The first process runs before its child. -/
theorem fcfs_dispatch_oneChild : ∃ s s' : State Unit, step .fcfs s (.pick ()) = .next s' ∧
    Dispatches s s' () 0 ∧ (s.proc 1).state = .runnable ∧ (s.proc 0).pid ≤ (s.proc 1).pid ∧
      OldestFirst s.proc := by
  have hrun : (exec (checked (step .fcfs) fun s a _ =>
      (∃ c priority, a = .fork c priority) → CreatedLast s) (boot Unit 1 2) oneChild).test
        (fun s => decide ((s.proc 1).state = .runnable) &&
          (step .fcfs s (.pick ())).test fun s' => decide (Dispatches s s' () 0)) = true := by
    decide +kernel
  obtain ⟨s, run, hrun⟩ := run_of_test hrun
  obtain ⟨hchild, hrun⟩ := Bool.and_eq_true_iff.mp hrun
  obtain ⟨s', hstep, hdispatch⟩ := Outcome.test_eq_true.mp hrun
  have hdispatch := of_decide_eq_true hdispatch
  have hchild := of_decide_eq_true hchild
  have holdest := fcfs_dispatch.2 1 2 s (by decide) run s' _ () 0 hstep hdispatch
  exact ⟨s, s', hstep, hdispatch, hchild, holdest 1 hchild,
    (fcfs_dispatch.1 s s' _ () 0 hstep hdispatch).mp holdest⟩

/-- Slot 1 is reused in the tick in which slot 2 was taken: the third process
ever created waits in slot 2, the fourth has got slot 1. -/
def reusedSlot : List (Action Unit) :=
  atUser ++ forks none 3 4 ++ forks none 5 6 ++
    [.wait (), .back (), .acquire (), .pick (), .resume (), .exit (), .zombie (), .back (),
      .acquire (), .pick (), .resume ()] ++ forks none 7 8 ++ [.wait (), .back (), .acquire ()]

theorem not_fcfs : ¬ ∀ (s s' : State Unit) (p q : Slot), Reachable .fcfs s →
    step .fcfs s (.pick ()) = .next s' → Dispatches s s' () p →
      (s.proc q).state = .runnable → (s.proc p).pid ≤ (s.proc q).pid := by
  intro h
  have hrun : (exec (step .fcfs) (boot Unit 1 2) reusedSlot).test (fun s =>
      decide ((s.proc 2).state = .runnable ∧ (s.proc 2).pid < (s.proc 1).pid) &&
        (step .fcfs s (.pick ())).test fun s' => decide (Dispatches s s' () 1)) = true := by
    decide +kernel
  obtain ⟨s, hreaches, hrun⟩ := reaches_of_test hrun
  obtain ⟨holder, hrun⟩ := Bool.and_eq_true_iff.mp hrun
  obtain ⟨hwaiting, hless⟩ := of_decide_eq_true holder
  obtain ⟨s', hstep, hdispatch⟩ := Outcome.test_eq_true.mp hrun
  have hle := h s s' 1 2 ⟨1, 2, by decide, hreaches⟩ hstep (of_decide_eq_true hdispatch) hwaiting
  exact absurd hle (not_le.mpr hless)

/-! ## Later arrivals do not preempt -/

section OneCpu

variable {s s₁ s' t : State Unit} {a : Action Unit} {x y : Slot}

/-- `x` neither sleeps nor has exited. -/
def Stays (x : Slot) (s : State Unit) : Prop :=
  (s.proc x).state ≠ .sleeping ∧ (s.proc x).state ≠ .zombie

/-- No process that precedes `x` becomes `RUNNABLE`. -/
def NoneEarlier (x : Slot) (s s' : State Unit) : Prop :=
  ∀ q, (s.proc q).state ≠ .runnable → (s'.proc q).state = .runnable → ¬ Precedes s'.proc q x

instance (x : Slot) (s : State Unit) : Decidable (Stays x s) :=
  inferInstanceAs (Decidable (_ ∧ _))

instance (x : Slot) (s s' : State Unit) : Decidable (NoneEarlier x s s') :=
  inferInstanceAs (Decidable (∀ _, _))

/-- What holds from the dispatch of `x` on while no process before it turns up. -/
structure Leads (x : Slot) (s : State Unit) : Prop where
  ready : (s.proc x).state.Ready
  first : ∀ q, (s.proc q).state = .runnable → ¬ Precedes s.proc q x

theorem Leads.step (h : Leads x s) (hinv : Inv s) (hstep : Step .fcfs s a s') (hstays : Stays x s')
    (hnone : NoneEarlier x s s') : Leads x s' := by
  have hx : (s'.proc x).ctime = (s.proc x).ctime := by
    refine (hstep.life hinv x).ctime_eq ?_
    rcases h.ready with hx | hx <;> simp [hx]
  refine ⟨hstep.ready_of_ready hinv h.ready hstays.1 hstays.2, fun q hq => ?_⟩
  by_cases hbefore : (s.proc q).state = .runnable
  · have hctime : (s'.proc q).ctime = (s.proc q).ctime :=
      (hstep.life hinv q).ctime_eq (by simp [hbefore])
    rw [Precedes.congr hctime hx]
    exact h.first q hbefore
  · exact hnone q hbefore hq

theorem Leads.choose (h : Leads x s) (hinv : Inv s) {first : ℕ}
    (hctrl : (s.cpu ()).ctrl = .scan first) : State.choose .fcfs s.proc first = some x := by
  refine choose_fcfs_iff.mpr ⟨hinv.runnable_of_scan hctrl h.ready, fun q hq hne => ?_⟩
  exact (precedes_or hne).resolve_left (h.first q hq)

theorem Leads.of_dispatches (hstep : Step .fcfs s a s')
    (hdispatch : Dispatches s s' () x) : Leads x s' := by
  obtain ⟨-, first, pgdir, -, hchoose, rfl⟩ := hstep.of_dispatches hdispatch
  obtain ⟨-, hfirst⟩ := choose_fcfs_iff.mp hchoose
  refine ⟨Or.inr (by simp), fun q hq => ?_⟩
  have hqx : q ≠ x := by
    rintro rfl
    simp at hq
  have hctime : ∀ r, ((s.proc.modify x fun q => { q with state := .running }) r).ctime =
      (s.proc r).ctime := Ptable.modify_field _ _ _ Proc.ctime fun _ => rfl
  have hprecedes := hfirst q (by simpa [hqx] using hq) hqx
  exact ((Precedes.congr (hctime x) (hctime q)).mpr hprecedes).asymm

/-- From its dispatch until it sleeps or exits, whoever else is dispatched
precedes `x`; and if no process before `x` becomes `RUNNABLE`, every scan
dispatches `x` again. -/
theorem fcfs_nonpreemptive (hreach : Reachable .fcfs s)
    (hfirst : step .fcfs s (.pick ()) = .next s₁) (hdispatch : Dispatches s s₁ () x) :
    (∀ t, Run (step .fcfs) (fun _ _ s' => Stays x s') s₁ t →
      ∀ a t' y, step .fcfs t a = .next t' → Dispatches t t' () y → y ≠ x → Precedes t.proc y x) ∧
    ∀ t, Run (step .fcfs) (fun s _ s' => Stays x s' ∧ NoneEarlier x s s') s₁ t →
      ∀ first, (t.cpu ()).ctrl = .scan first →
        ∃ t', step .fcfs t (.pick ()) = .next t' ∧ Dispatches t t' () x := by
  have hinv₁ := (Inv.of_reachable hreach).step (step_cases hfirst)
  have hleads₁ := Leads.of_dispatches (step_cases hfirst) hdispatch
  refine ⟨fun t run a t' y hstep hdispatch' hne => ?_, fun t run first hctrl => ?_⟩
  · have hready : (t.proc x).state.Ready := hinv₁.run_invariant
      (I := fun s => (s.proc x).state.Ready) run hleads₁.ready
      fun _ _ _ hstep hstays hinv hready => hstep.ready_of_ready hinv hready hstays.1 hstays.2
    obtain ⟨-, first, pgdir, hctrl, hchoose, -⟩ := (step_cases hstep).of_dispatches hdispatch'
    have hx := (hinv₁.of_run run).runnable_of_scan hctrl hready
    exact (choose_fcfs_iff.mp hchoose).2 x hx hne.symm
  · have hleads : Leads x t := hinv₁.run_invariant run hleads₁
      fun _ _ _ hstep hguard hinv hleads => hleads.step hinv hstep hguard.1 hguard.2
    have hchoose := hleads.choose (hinv₁.of_run run) hctrl
    obtain ⟨kstack, pgdir, hne, hreaches⟩ := hreach
    have hreacht : Reachable .fcfs t :=
      ⟨kstack, pgdir, hne, (hreaches.snoc hfirst).trans run.reaches⟩
    exact exists_dispatch (PageInv.of_reachable hreacht) hctrl hchoose

/-- The first process forks and yields: it is dispatched again, not its child. -/
theorem fcfs_nonpreemptive_oneChild : ∃ t t' : State Unit, (t.proc 1).state = .runnable ∧
    step .fcfs t (.pick ()) = .next t' ∧ Dispatches t t' () 0 ∧ ¬ Dispatches t t' () 1 := by
  have hrun : (exec (step .fcfs) (boot Unit 1 2) [.acquire ()]).test (fun s =>
      (step .fcfs s (.pick ())).test fun s₁ => decide (Dispatches s s₁ () 0) &&
        (exec (checked (step .fcfs) fun s _ s' => Stays 0 s' ∧ NoneEarlier 0 s s') s₁
          (oneChild.drop 2)).test fun t =>
            decide ((t.proc 1).state = .runnable ∧ (t.cpu ()).ctrl = .scan 0 ∧
              ¬ Precedes t.proc 1 0)) = true := by
    decide +kernel
  obtain ⟨s, hreaches, hrun⟩ := reaches_of_test hrun
  obtain ⟨s₁, hfirst, hrun⟩ := Outcome.test_eq_true.mp hrun
  obtain ⟨hdispatch, hrun⟩ := Bool.and_eq_true_iff.mp hrun
  obtain ⟨t, run, hrun⟩ := run_of_test hrun
  obtain ⟨hchild, hctrl, hbehind⟩ := of_decide_eq_true hrun
  obtain ⟨hother, hagain⟩ := fcfs_nonpreemptive ⟨1, 2, by decide, hreaches⟩ hfirst
    (of_decide_eq_true hdispatch)
  obtain ⟨t', hstep, hdispatch'⟩ := hagain t run 0 hctrl
  have hstays := run.mono fun _ _ _ _ hguard => hguard.1
  exact ⟨t, t', hchild, hstep, hdispatch', fun hnot =>
    hbehind (hother t hstays _ t' 1 hstep hnot (by decide))⟩

end OneCpu

end Xv6
