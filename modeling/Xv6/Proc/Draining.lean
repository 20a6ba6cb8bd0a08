import Xv6.Lib.Selection
import Xv6.Proc.FcfsScheduler
import Xv6.Proc.PriorityScheduler
import Xv6.Proc.Reaping

/-!
# Draining the ready queue

On one CPU, with processes that leave `RUNNABLE` for good when they are
dispatched and no others that become `RUNNABLE`, the schedulers of both kernels
take the processes out of the table one by one, each before those that remain: by
creation time and slot in the FCFS kernel, by priority in the priority kernel.
Every pass that begins with a `RUNNABLE` process dispatches one, so that after as
many passes as there were processes all have been dispatched (`drains`).
-/

namespace Xv6

open Transition Selection

variable {kernel : Kernel} {s s' t : State Unit} {a : Action Unit} {p q : Slot} {table : Ptable}

/-! ## Passes -/

/-- The processes dispatched so far, in order, and the number of passes over the
table that are over. -/
structure Passes where
  order : List Slot := []
  passes : ℕ := 0

def Passes.record (r : Passes) (s s' : State Unit) : Passes where
  order := match (s'.cpu ()).ctrl with
    | .run p => if Dispatches s s' () p then r.order ++ [p] else r.order
    | _ => r.order
  passes :=
    if (s.cpu ()).ctrl ≠ .idle ∧ (s'.cpu ()).ctrl = .idle then r.passes + 1 else r.passes

/-- No process becomes `RUNNABLE`. -/
def Settles (s s' : State Unit) : Prop :=
  ∀ q, (s'.proc q).state = .runnable → (s.proc q).state = .runnable

instance (s s' : State Unit) : Decidable (Settles s s') :=
  inferInstanceAs (Decidable (∀ _, _))

/-- The order in which the kernel dispatches. -/
def Before (kernel : Kernel) (table : Ptable) (p q : Slot) : Prop :=
  match kernel with
  | .fcfs => Precedes table p q
  | .priority => (table p).priority ≤ (table q).priority

/-- Whether the pass under way has dispatched a process. -/
def Ctrl.dispatched : Ctrl → ℕ
  | .idle => 0
  | .scan 0 => 0
  | _ => 1

theorem choose_before {first : ℕ} (h : State.choose kernel table first = some p)
    (hq : (table q).state = .runnable) (hne : q ≠ p) : Before kernel table p q := by
  cases kernel with
  | fcfs => exact (choose_fcfs_iff.mp h).2 q hq hne
  | priority => exact choose_priority_le h hq

/-- A scan from the first slot finds a process if there is one. -/
theorem choose_eq_none (h : State.choose kernel table 0 = none) (q : Slot) :
    (table q).state ≠ .runnable := by
  intro hq
  cases kernel with
  | fcfs =>
      have hnone : minP table = none := h
      unfold minP at hnone
      rw [Scan.least_eq_none_iff slots_sorted] at hnone
      exact hnone q (mem_slots q) hq
  | priority =>
      obtain ⟨p, hp⟩ := exists_choose_priority hq
      exact absurd (h.symm.trans hp) (by simp)

/-! ## One step -/

/-- What the choice of the scheduler depends on, of a process that waits for it. -/
structure SameProc (q q' : Proc) : Prop where
  ctime : q'.ctime = q.ctime
  priority : q'.priority = q.priority
  kstack : q'.kstack = q.kstack
  pgdir : q'.pgdir = q.pgdir

theorem Step.sameProc (hinv : Inv s) (hstep : Step kernel s a s')
    (hq : (s.proc q).state = .runnable) : SameProc (s.proc q) (s'.proc q) := by
  have hlife := hstep.life hinv q
  rcases hlife.pages_of_live hinv (by rw [hq]; rfl) with ⟨-, hkstack, hpgdir⟩ | ⟨hzombie, -⟩
  · refine ⟨hlife.ctime_eq (by simp [hq]), hlife.priority_eq hinv (by simp [hq]), hkstack, ?_⟩
    refine hpgdir.resolve_right ?_
    rintro ⟨c, -, hctrl⟩
    simp [(hinv.run c q hctrl).2] at hq
  · simp [hq] at hzombie

/-- What becomes of the queue: the process that is dispatched leaves it, and no
other. -/
theorem Step.runnable_iff (hinv : Inv s) (hstep : Step kernel s a s') (hsettles : Settles s s')
    (q : Slot) :
    (s'.proc q).state = .runnable ↔ (s.proc q).state = .runnable ∧ ¬ Dispatches s s' () q := by
  constructor
  · intro hq
    refine ⟨hsettles q hq, fun hdispatch => ?_⟩
    have hrunning := ((hinv.step hstep).run () q hdispatch.2).2
    simp [hq] at hrunning
  · rintro ⟨hq, hnot⟩
    refine (hstep.ready_of_runnable hinv hq).resolve_right fun hrunning => hnot ?_
    obtain ⟨⟨⟩, hdispatch⟩ := hstep.dispatches_of_running hinv (by simp [hq]) hrunning
    exact hdispatch

theorem Before.congr {table' : Ptable} (hp : SameProc (table p) (table' p))
    (hq : SameProc (table q) (table' q)) : Before kernel table' p q ↔ Before kernel table p q := by
  cases kernel with
  | fcfs => exact Precedes.congr hp.ctime hq.ctime
  | priority => simp [Before, hp.priority, hq.priority]

/-! ## Runs -/

/-- What has been dispatched from the first table and what remains in the queue
as it was, and how many passes that took. -/
structure DrainInv (kernel : Kernel) (table : Ptable) (s : State Unit) (r : Passes) : Prop where
  taken : Taken (Before kernel table) (fun q => (table q).state = .runnable) r.order
    fun q => (s.proc q).state = .runnable
  same : ∀ q, (s.proc q).state = .runnable → SameProc (table q) (s.proc q)
  passes : (∀ q, (s.proc q).state ≠ .runnable) ∨
    r.passes + (s.cpu ()).ctrl.dispatched ≤ r.order.length

/-- A pass that is over has dispatched a process, if there was one to dispatch. -/
theorem Step.passes_le (hstep : Step kernel s a s') (hnone : ∀ p, ¬ Dispatches s s' () p)
    (hq : (s.proc q).state = .runnable) (r : Passes) :
    (r.record s s').passes + (s'.cpu ()).ctrl.dispatched ≤
      r.passes + (s.cpu ()).ctrl.dispatched := by
  have hkept : (s'.cpu ()).ctrl = (s.cpu ()).ctrl →
      (r.record s s').passes + (s'.cpu ()).ctrl.dispatched ≤
        r.passes + (s.cpu ()).ctrl.dispatched := by
    intro hctrl
    simp only [Passes.record, hctrl]
    rw [if_neg (by simp)]
  cases hstep with
  | startPass c hctrl => simp [Passes.record, hctrl, Ctrl.dispatched]
  | endPass c first hctrl hchoose =>
      -- the pass that finds nothing has begun behind a process that it dispatched
      cases first with
      | zero => exact absurd hq (choose_eq_none hchoose q)
      | succ first => simp [Passes.record, hctrl, Ctrl.dispatched]
  | dispatch c first p pgdir hctrl =>
      refine absurd ?_ (hnone p)
      simp [Dispatches, hctrl]
  | backFcfs c p hkernel hctrl => simp [Passes.record, hctrl, Ctrl.dispatched]
  | backPriority c p hkernel hctrl => simp [Passes.record, hctrl, Ctrl.dispatched]
  | yield c p hctrl => simp [Passes.record, hctrl, Ctrl.dispatched]
  | sleep c p address hctrl => simp [Passes.record, hctrl, Ctrl.dispatched]
  | zombie c p hctrl => simp [Passes.record, hctrl, Ctrl.dispatched]
  | growproc c p pgdir => exact hkept (State.reload_cpu c pgdir ()).1
  | execSwitch c p oldpgdir pgdir => exact hkept (State.reload_cpu c pgdir ()).1
  | round a c p request scanning s' hentry hround =>
      have hctrl := hentry.ctrl
      cases hround with
      | reaped => exact hkept (by simp [hentry.cpu])
      | gaveUp => exact hkept (by simp [hentry.cpu])
      | slept => simp [Passes.record, hctrl, Ctrl.dispatched]
  | _ => exact hkept rfl

/-- What one step does to the record of the passes. -/
theorem Step.record_cases (hstep : Step kernel s a s') (r : Passes) :
    (∃ p first, Dispatches s s' () p ∧ State.choose kernel s.proc first = some p ∧
        (r.record s s').order = r.order ++ [p] ∧ (r.record s s').passes = r.passes ∧
          (s'.cpu ()).ctrl.dispatched = 1) ∨
      (∀ p, ¬ Dispatches s s' () p) ∧ (r.record s s').order = r.order ∧
        ∀ q, (s.proc q).state = .runnable →
          (r.record s s').passes + (s'.cpu ()).ctrl.dispatched ≤
            r.passes + (s.cpu ()).ctrl.dispatched := by
  by_cases hdispatch : ∃ p, Dispatches s s' () p
  · obtain ⟨p, hdispatch⟩ := hdispatch
    obtain ⟨-, first, pgdir, hctrl, hchoose, -⟩ := hstep.of_dispatches hdispatch
    refine Or.inl ⟨p, first, hdispatch, hchoose, ?_, ?_, ?_⟩
    · simp [Passes.record, hdispatch.2, hdispatch]
    · simp [Passes.record, hdispatch.2]
    · simp [hdispatch.2, Ctrl.dispatched]
  · have hnone : ∀ p, ¬ Dispatches s s' () p := fun p hp => hdispatch ⟨p, hp⟩
    refine Or.inr ⟨hnone, ?_, fun q hq => hstep.passes_le hnone hq r⟩
    simp only [Passes.record]
    split
    · rw [if_neg (hnone _)]
    · rfl

theorem SameProc.trans {q q' q'' : Proc} (h : SameProc q q') (h' : SameProc q' q'') :
    SameProc q q'' :=
  ⟨h'.ctime.trans h.ctime, h'.priority.trans h.priority, h'.kstack.trans h.kstack,
    h'.pgdir.trans h.pgdir⟩

theorem DrainInv.step {r : Passes} (h : DrainInv kernel table s r) (hinv : Inv s)
    (hstep : Step kernel s a s') (hsettles : Settles s s') :
    DrainInv kernel table s' (r.record s s') := by
  have hrunnable := hstep.runnable_iff hinv hsettles
  have hsame : ∀ q, (s'.proc q).state = .runnable → SameProc (table q) (s'.proc q) := by
    intro q hq
    have hbefore := ((hrunnable q).mp hq).1
    exact (h.same q hbefore).trans (hstep.sameProc hinv hbefore)
  rcases hstep.record_cases r with ⟨p, first, hdispatch, hchoose, horder, hpasses, hctrl⟩ |
    ⟨hnone, horder, hpasses⟩
  · have hp := choose_runnable hchoose
    have honly : ∀ q, Dispatches s s' () q ↔ q = p := by
      intro q
      constructor
      · intro hq
        simpa using hq.2.symm.trans hdispatch.2
      · rintro rfl
        exact hdispatch
    refine ⟨?_, hsame, ?_⟩
    · rw [horder]
      refine h.taken.take hp (fun q hq hne => ?_) fun q => ?_
      · exact (Before.congr (h.same p hp) (h.same q hq)).mp (choose_before hchoose hq hne)
      · rw [hrunnable q, honly q]
    · refine Or.inr ?_
      rw [horder, hpasses, hctrl, List.length_append, List.length_singleton]
      rcases h.passes with hempty | hle
      · exact absurd hp (hempty p)
      · omega
  · refine ⟨?_, hsame, ?_⟩
    · rw [horder]
      exact h.taken.congr fun q => by simp [hrunnable q, hnone q]
    · by_cases hempty : ∀ q, (s.proc q).state ≠ .runnable
      · exact Or.inl fun q hq => hempty q ((hrunnable q).mp hq).1
      · obtain ⟨q, hq⟩ : ∃ q, (s.proc q).state = .runnable := by simpa using hempty
        refine Or.inr ?_
        rw [horder]
        exact (hpasses q hq).trans (h.passes.resolve_left hempty)

end Xv6
