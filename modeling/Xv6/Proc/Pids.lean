import Xv6.Proc.Lifecycle

/-!
# Process ids

As long as `nextpid` has not passed the greatest `int`, the processes of the
table have positive and distinct ids, all of them below `nextpid`.  The table
tells nothing about the ids that stay behind in unused slots.
-/

namespace Xv6

open Transition

variable {C : Type} {kernel : Kernel} {s s' : State C} {a : Action C} {c : C} {p q n : Slot}

section Life

/-- A slot in use after a step was in use with the same pid, or has just been
allocated. -/
theorem Life.pid_eq {q' : Proc} (hinv : Inv s) (h : Life kernel s a n q')
    (hused : q'.state ≠ .unused) :
    (s.proc n).state ≠ .unused ∧ q'.pid = (s.proc n).pid ∨
      (∃ c priority, a = .fork c priority) ∧ firstUnused s.proc = some n ∧
        q' = Xv6.allocated (toInt s.nextpid) s.ticks (s.proc n) := by
  have hrun : ∀ {c : C}, (s.cpu c).ctrl = .run n → (s.proc n).state ≠ .unused := by
    intro c hctrl
    simp [(hinv.run c n hctrl).2]
  cases h with
  | same => exact Or.inl ⟨hused, rfl⟩
  | woken hstate => exact Or.inl ⟨by simp [hstate], rfl⟩
  | dispatched c first _ _ hchoose => exact Or.inl ⟨by simp [choose_runnable hchoose], rfl⟩
  | resumed c _ hctrl => exact Or.inl ⟨hrun hctrl, rfl⟩
  | yielded c _ hctrl => exact Or.inl ⟨hrun hctrl, rfl⟩
  | slept c address _ hctrl => exact Or.inl ⟨hrun hctrl, rfl⟩
  | waits c hctrl => exact Or.inl ⟨hrun hctrl, rfl⟩
  | gaveUp c chan _ hctrl => exact Or.inl ⟨hrun hctrl, rfl⟩
  | exited c x _ hctrl hx =>
      refine Or.inl ⟨hrun hctrl, ?_⟩
      rcases hx with rfl | ⟨-, rfl⟩ <;> rfl
  | orphaned c cur x _ _ _ hx =>
      rcases hx with rfl | ⟨hsleeping, rfl⟩
      · exact Or.inl ⟨hused, rfl⟩
      · exact Or.inl ⟨by simp [hsleeping], rfl⟩
  | killed c pid _ _ =>
      refine Or.inl ⟨fun hunused => ?_, rfl⟩
      simp [Proc.kill, hunused] at hused
  | fault c _ hctrl => exact Or.inl ⟨hrun hctrl, rfl⟩
  | listed c _ hstate => exact Or.inl ⟨hstate, rfl⟩
  | allocated c priority haction hunused => exact Or.inr ⟨⟨c, priority, haction⟩, hunused, rfl⟩
  | stacked c p kstack _ _ hchild => exact Or.inl ⟨hused, rfl⟩
  | inherited c p pgdir priority _ _ _ => exact Or.inl ⟨hused, rfl⟩
  | started c p _ _ hpc =>
      have hembryo := hinv.embryo p n (by rw [hpc]; rfl)
      exact Or.inl ⟨by simp [hembryo], rfl⟩
  | freed => exact absurd rfl hused
  | reaped => exact absurd rfl hused
  | committed c pgdir _ hctrl => exact Or.inl ⟨hrun hctrl, rfl⟩

end Life

/-! ## The counter -/

section Counter

variable [DecidableEq C]

/-- Only an `allocproc` that finds a slot counts `nextpid` up. -/
theorem Step.nextpid_eq (hstep : Step kernel s a s') :
    s'.nextpid = s.nextpid ∧
        ((∃ c priority, a = .fork c priority) → firstUnused s.proc = none) ∨
      (∃ c priority, a = .fork c priority) ∧ s'.nextpid = s.nextpid + 1 := by
  cases hstep with
  | fork c p np priority => exact Or.inr ⟨⟨c, priority, rfl⟩, rfl⟩
  | forkFull c p priority _ _ _ _ _ hunused => exact Or.inl ⟨rfl, fun _ => hunused⟩
  | round a c p request scanning s' hentry hround =>
      refine Or.inl ⟨?_, ?_⟩
      · cases hround <;> exact hentry.nextpid
      · rintro ⟨c', priority, rfl⟩
        simpa using hentry.action_eq
  | _ => exact Or.inl ⟨rfl, by simp⟩

theorem Step.nextpid_le (hstep : Step kernel s a s') : s.nextpid ≤ s'.nextpid := by
  rcases hstep.nextpid_eq with ⟨h, -⟩ | ⟨-, h⟩ <;> omega

end Counter

/-! ## The invariant -/

structure Pids (s : State C) : Prop where
  bounds : ∀ p, (s.proc p).state ≠ .unused → 0 < (s.proc p).pid ∧ (s.proc p).pid < s.nextpid
  distinct : ∀ p q, (s.proc p).state ≠ .unused → (s.proc q).state ≠ .unused →
    (s.proc p).pid = (s.proc q).pid → p = q

/-- The ids are in order unless `nextpid` has passed the greatest `int`. -/
structure PidInv (s : State C) : Prop where
  started : 0 < s.nextpid
  pids : s.nextpid ≤ 2 ^ 31 → Pids s

section Steps

variable [DecidableEq C]

theorem Pids.step (h : Pids s) (hinv : Inv s) (hstep : Step kernel s a s')
    (hstarted : 0 < s.nextpid) (hbound : s'.nextpid ≤ 2 ^ 31) : Pids s' := by
  -- a slot in use was in use before, or has just been given `nextpid`
  have hcases : ∀ n, (s'.proc n).state ≠ .unused →
      (s.proc n).state ≠ .unused ∧ (s'.proc n).pid = (s.proc n).pid ∨
        firstUnused s.proc = some n ∧ (s'.proc n).pid = s.nextpid ∧
          s'.nextpid = s.nextpid + 1 := by
    intro n hn
    rcases (hstep.life hinv n).pid_eq hinv hn with hkept | ⟨hfork, hunused, hpid⟩
    · exact Or.inl hkept
    · rcases hstep.nextpid_eq with ⟨-, hnone⟩ | ⟨-, hnext⟩
      · simp [hnone hfork] at hunused
      · have hnew : (s'.proc n).pid = toInt s.nextpid := by rw [hpid, allocated]
        exact Or.inr ⟨hunused, by rw [hnew, toInt_of_le (by omega)], hnext⟩
  have hle := hstep.nextpid_le
  constructor
  case bounds =>
    intro n hn
    rcases hcases n hn with ⟨hbefore, hpid⟩ | ⟨-, hpid, hnext⟩
    · have hn := h.bounds n hbefore
      omega
    · omega
  case distinct =>
    intro n m hn hm heq
    rcases hcases n hn with ⟨hn, hpid⟩ | ⟨hn, hpid, -⟩ <;>
      rcases hcases m hm with ⟨hm, hpid'⟩ | ⟨hm, hpid', -⟩
    · exact h.distinct n m hn hm (by omega)
    · -- all old ids are below the new one
      have hbelow := (h.bounds n hn).2
      omega
    · have hbelow := (h.bounds m hm).2
      omega
    · exact Option.some.inj (hn.symm.trans hm)

theorem PidInv.step (h : PidInv s) (hinv : Inv s) (hstep : Step kernel s a s') : PidInv s' where
  started := h.started.trans_le hstep.nextpid_le
  pids hbound := (h.pids (hstep.nextpid_le.trans hbound)).step hinv hstep h.started hbound

omit [DecidableEq C] in
theorem PidInv.boot (kstack pgdir : Addr) : PidInv (boot C kstack pgdir) := by
  have hinit : ∀ p, ((Xv6.boot C kstack pgdir).proc p).state ≠ .unused → p = initproc := by
    intro p hp
    by_contra hne
    simp [Xv6.boot, hne] at hp
  refine ⟨by simp [Xv6.boot], fun _ => ⟨?_, ?_⟩⟩
  · intro p hp
    obtain rfl := hinit p hp
    have hfirst : toInt 1 = 1 := toInt_of_le (by omega)
    simp [Xv6.boot, allocated, hfirst]
  · intro p q hp hq _
    rw [hinit p hp, hinit q hq]

theorem PidInv.of_reachable (h : Reachable kernel s) : PidInv s := by
  obtain ⟨kstack, pgdir, -, hreaches⟩ := h
  exact (Inv.boot kstack pgdir).run_invariant hreaches (PidInv.boot kstack pgdir)
    fun _ _ _ hstep _ hinv hpids => hpids.step hinv hstep

end Steps

end Xv6
