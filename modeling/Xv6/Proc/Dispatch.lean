import Xv6.Proc.Step

/-!
# Who runs where

`DispatchInv` is the invariant of the hand-over of `ptable.lock` between the
schedulers and the kernel threads: a CPU that scans or has just come back from a
process holds the lock, a CPU that executes a process holds it exactly until the
thread has taken its `resume` step, and a process is `RUNNING` exactly when one
CPU executes it.
-/

namespace Xv6

open Transition

variable {C : Type} {kernel : Kernel} {s s' : State C} {a : Action C} {c : C} {p : Slot}

/-! ## The invariant -/

def ProcState.suspended (state : ProcState) : Prop :=
  state = .runnable ∨ state = .sleeping

/-- A thread that is not executing has called `sched()`, and not from `exit`. -/
def Resume.suspended (resume : Resume) : Prop :=
  resume ≠ .onCpu ∧ resume ≠ .zombie

structure DispatchInv (s : State C) : Prop where
  idle : ∀ c, (s.cpu c).ctrl = .idle → (s.cpu c).proc = none ∧ s.lock ≠ some c
  scan : ∀ c first, (s.cpu c).ctrl = .scan first → (s.cpu c).proc = none ∧ s.lock = some c
  run : ∀ c p, (s.cpu c).ctrl = .run p → (s.cpu c).proc = some p ∧ (s.proc p).state = .running
  held : ∀ c p, (s.cpu c).ctrl = .run p → (s.lock = some c ↔ (s.thread p).resume ≠ .onCpu)
  back : ∀ c p, (s.cpu c).ctrl = .back p → (s.cpu c).proc = some p ∧ s.lock = some c ∧
    ((s.proc p).state.suspended ∨ (s.proc p).state = .zombie)
  unique : ∀ c c' p, (s.cpu c).ctrl = .run p → (s.cpu c').ctrl = .run p → c = c'
  owner : ∀ p, (s.proc p).state = .running → ∃ c, (s.cpu c).ctrl = .run p
  suspended : ∀ p, (s.proc p).state.suspended → (s.thread p).resume.suspended
  running : ∀ p, (s.proc p).state = .running → (s.thread p).resume ≠ .zombie

/-- What a step may do to a slot whose own thread does not take it: leave it
alone, or change the state of a process that no CPU is executing. -/
inductive Kept (s s' : State C) (q : Slot) : Prop
  | same (hstate : (s'.proc q).state = (s.proc q).state)
      (hresume : (s'.thread q).resume = (s.thread q).resume)
  | changed (hbefore : (s.proc q).state ≠ .running) (hafter : (s'.proc q).state ≠ .running)
      (hback : ∀ c, (s.cpu c).ctrl ≠ .back q)
      (hresume : (s'.proc q).state.suspended → (s'.thread q).resume.suspended)

namespace Kept

variable {q : Slot}

theorem running_iff (h : Kept s s' q) :
    (s'.proc q).state = .running ↔ (s.proc q).state = .running := by
  cases h with
  | same hstate _ => rw [hstate]
  | changed hbefore hafter _ _ => exact iff_of_false hafter hbefore

theorem resume_eq (h : Kept s s' q) (hrunning : (s.proc q).state = .running) :
    (s'.thread q).resume = (s.thread q).resume := by
  cases h with
  | same _ hresume => exact hresume
  | changed hbefore _ _ _ => exact absurd hrunning hbefore

theorem state_eq_of_back (h : Kept s s' q) (hback : (s.cpu c).ctrl = .back q) :
    (s'.proc q).state = (s.proc q).state := by
  cases h with
  | same hstate _ => exact hstate
  | changed _ _ hnot _ => exact absurd hback (hnot c)

theorem suspended (h : Kept s s' q)
    (hq : (s.proc q).state.suspended → (s.thread q).resume.suspended)
    (hafter : (s'.proc q).state.suspended) : (s'.thread q).resume.suspended := by
  cases h with
  | same hstate hresume =>
      rw [hresume]
      exact hq (hstate ▸ hafter)
  | changed _ _ _ hresume => exact hresume hafter

end Kept

namespace DispatchInv

/-- No CPU is on its way back from a process while the lock is free or held by a
CPU that executes one. -/
theorem ne_back (h : DispatchInv s) (hlock : s.lock = none) (c : C) (q : Slot) :
    (s.cpu c).ctrl ≠ .back q := by
  intro hback
  have hheld := (h.back c q hback).2.1
  simp [hlock] at hheld

theorem ne_back_of_run (h : DispatchInv s) (hctrl : (s.cpu c).ctrl = .run p)
    (hlock : s.lock = some c) (c' : C) (q : Slot) : (s.cpu c').ctrl ≠ .back q := by
  intro hback
  obtain rfl : c = c' := Option.some.inj (hlock.symm.trans (h.back c' q hback).2.1)
  simp [hctrl] at hback

/-- A step by which no CPU changes what it executes. -/
theorem quiet (h : DispatchInv s) (hctrl : ∀ c, (s'.cpu c).ctrl = (s.cpu c).ctrl)
    (hproc : ∀ c, (s'.cpu c).proc = (s.cpu c).proc) (hlock : s'.lock = s.lock)
    (hslots : ∀ q, Kept s s' q) : DispatchInv s' where
  idle c := by
    rw [hctrl, hproc, hlock]
    exact h.idle c
  scan c first := by
    rw [hctrl, hproc, hlock]
    exact h.scan c first
  run c p hp := by
    rw [hctrl] at hp
    rw [hproc, (hslots p).running_iff]
    exact h.run c p hp
  held c p hp := by
    rw [hctrl] at hp
    rw [hlock, (hslots p).resume_eq (h.run c p hp).2]
    exact h.held c p hp
  back c p hp := by
    rw [hctrl] at hp
    rw [hproc, hlock, (hslots p).state_eq_of_back hp]
    exact h.back c p hp
  unique c c' p := by
    rw [hctrl, hctrl]
    exact h.unique c c' p
  owner p hp := by
    obtain ⟨c, hc⟩ := h.owner p ((hslots p).running_iff.mp hp)
    exact ⟨c, (hctrl c).trans hc⟩
  suspended p := (hslots p).suspended (h.suspended p)
  running p hp := by
    have hbefore := (hslots p).running_iff.mp hp
    rw [(hslots p).resume_eq hbefore]
    exact h.running p hbefore

/-- A step of the thread on CPU `c` after which the lock is free: the thread took
and released it, or it was just switched to and releases what it was handed. -/
theorem released (h : DispatchInv s) (hrun : (s.cpu c).ctrl = .run p)
    (hfree : s.lock = none ∨ s.lock = some c)
    (hcpu : s'.cpu = s.cpu) (hlock : s'.lock = none) (hstate : (s'.proc p).state = .running)
    (hresume : (s'.thread p).resume = .onCpu) (hslots : ∀ q, q ≠ p → Kept s s' q) :
    DispatchInv s' := by
  rcases hfree with hfree | hheld
  · -- the thread took the lock itself and gave it back: what the CPUs execute stays
    have honCpu : (s.thread p).resume = .onCpu := by
      have hnot := (h.held c p hrun).not.mp (by simp [hfree])
      exact not_not.mp hnot
    refine h.quiet (by simp [hcpu]) (by simp [hcpu]) (hlock.trans hfree.symm) fun q => ?_
    by_cases hq : q = p
    · subst hq
      exact .same (hstate.trans (h.run c q hrun).2.symm) (hresume.trans honCpu.symm)
    · exact hslots q hq
  -- the thread had the lock from the scheduler, so no CPU is on its way back
  have hback : ∀ c q, (s'.cpu c).ctrl ≠ .back q := by
    rw [hcpu]
    exact h.ne_back_of_run hrun hheld
  have hrunning : ∀ q, (s'.proc q).state = .running ↔ (s.proc q).state = .running := by
    intro q
    by_cases hq : q = p
    · subst hq
      exact iff_of_true hstate (h.run c q hrun).2
    · exact (hslots q hq).running_iff
  constructor
  case idle =>
    intro c' hidle
    rw [hcpu] at hidle ⊢
    exact ⟨(h.idle c' hidle).1, by simp [hlock]⟩
  case scan =>
    intro c' first hscan
    rw [hcpu] at hscan
    obtain rfl : c = c' := Option.some.inj (hheld.symm.trans (h.scan c' first hscan).2)
    simp [hrun] at hscan
  case run =>
    intro c' q hq
    rw [hcpu] at hq ⊢
    rw [hrunning]
    exact h.run c' q hq
  case held =>
    intro c' q hq
    rw [hcpu] at hq
    rw [hlock]
    refine iff_of_false (by simp) ?_
    by_cases hqp : q = p
    · subst hqp
      exact not_not.mpr hresume
    · rw [(hslots q hqp).resume_eq (h.run c' q hq).2, ← h.held c' q hq, hheld]
      rintro hc
      obtain rfl := Option.some.inj hc
      rw [hrun] at hq
      exact hqp (Ctrl.run.inj hq).symm
  case back => exact fun c' q hq => absurd hq (hback c' q)
  case unique =>
    rw [hcpu]
    exact h.unique
  case owner =>
    intro q hq
    rw [hcpu]
    exact h.owner q ((hrunning q).mp hq)
  case suspended =>
    intro q hq
    have hqp : q ≠ p := by
      rintro rfl
      simp [hstate, ProcState.suspended] at hq
    exact (hslots q hqp).suspended (h.suspended q) hq
  case running =>
    intro q hq
    by_cases hqp : q = p
    · subst hqp
      simp [hresume]
    · have hbefore := (hslots q hqp).running_iff.mp hq
      rw [(hslots q hqp).resume_eq hbefore]
      exact h.running q hbefore

variable [DecidableEq C]

/-- A step that ends in `sched()`. -/
theorem scheduled (h : DispatchInv s) (hrun : (s.cpu c).ctrl = .run p)
    (hfree : s.lock = none ∨ s.lock = some c)
    (hcpu : s'.cpu = Function.update s.cpu c { s.cpu c with ctrl := .back p })
    (hlock : s'.lock = some c)
    (hstate : (s'.proc p).state = .zombie ∨
      (s'.proc p).state.suspended ∧ (s'.thread p).resume.suspended)
    (hslots : ∀ q, q ≠ p → Kept s s' q) : DispatchInv s' := by
  have hback : ∀ c' q, (s'.cpu c').ctrl = .back q → c' = c ∧ q = p := by
    intro c' q hq
    rw [hcpu, Function.update_apply] at hq
    split at hq
    · rename_i hc
      exact ⟨hc, (Ctrl.back.inj hq).symm⟩
    · rcases hfree with hfree | hfree
      · exact absurd hq (h.ne_back hfree c' q)
      · exact absurd hq (h.ne_back_of_run hrun hfree c' q)
  have hother : ∀ c', c' ≠ c → s'.cpu c' = s.cpu c' := by
    intro c' hc
    rw [hcpu, Function.update_of_ne hc]
  have hself : s'.cpu c = { s.cpu c with ctrl := .back p } := by
    rw [hcpu, Function.update_self]
  have hnot : (s'.proc p).state ≠ .running := by
    rcases hstate with hstate | ⟨hstate, -⟩
    · simp [hstate]
    · rcases hstate with hstate | hstate <;> simp [hstate]
  -- the other CPUs execute other processes
  have hnotc : ∀ c' q, (s'.cpu c').ctrl = .run q →
      c' ≠ c ∧ q ≠ p ∧ (s.cpu c').ctrl = .run q := by
    intro c' q hq
    have hc : c' ≠ c := by
      rintro rfl
      simp [hself] at hq
    rw [hother c' hc] at hq
    refine ⟨hc, ?_, hq⟩
    rintro rfl
    exact hc (h.unique c' c q hq hrun)
  constructor
  case idle =>
    intro c' hidle
    have hc : c' ≠ c := by
      rintro rfl
      simp [hself] at hidle
    rw [hother c' hc] at hidle ⊢
    refine ⟨(h.idle c' hidle).1, ?_⟩
    rw [hlock]
    exact fun heq => hc (Option.some.inj heq).symm
  case scan =>
    intro c' first hscan
    have hc : c' ≠ c := by
      rintro rfl
      simp [hself] at hscan
    rw [hother c' hc] at hscan
    have hheld := (h.scan c' first hscan).2
    rcases hfree with hfree | hfree <;> rw [hfree] at hheld
    · simp at hheld
    · exact absurd (Option.some.inj hheld).symm hc
  case run =>
    intro c' q hq
    obtain ⟨hc, hqp, hq⟩ := hnotc c' q hq
    rw [hother c' hc, (hslots q hqp).running_iff]
    exact h.run c' q hq
  case held =>
    intro c' q hq
    obtain ⟨hc, hqp, hq⟩ := hnotc c' q hq
    rw [(hslots q hqp).resume_eq (h.run c' q hq).2, ← h.held c' q hq, hlock]
    refine iff_of_false (fun heq => hc (Option.some.inj heq).symm) ?_
    rcases hfree with hfree | hfree <;> rw [hfree]
    · simp
    · exact fun heq => hc (Option.some.inj heq).symm
  case back =>
    intro c' q hq
    obtain ⟨rfl, rfl⟩ := hback c' q hq
    rw [hself]
    exact ⟨(h.run c' q hrun).1, hlock, hstate.symm.imp_left fun hsuspended => hsuspended.1⟩
  case unique =>
    intro c₁ c₂ q h₁ h₂
    exact h.unique c₁ c₂ q (hnotc c₁ q h₁).2.2 (hnotc c₂ q h₂).2.2
  case owner =>
    intro q hq
    have hqp : q ≠ p := by
      rintro rfl
      exact hnot hq
    obtain ⟨c', hc'⟩ := h.owner q ((hslots q hqp).running_iff.mp hq)
    have hc : c' ≠ c := by
      rintro rfl
      rw [hrun] at hc'
      exact hqp (Ctrl.run.inj hc').symm
    exact ⟨c', by rw [hother c' hc, hc']⟩
  case suspended =>
    intro q hq
    by_cases hqp : q = p
    · subst hqp
      rcases hstate with hstate | ⟨-, hresume⟩
      · simp [hstate, ProcState.suspended] at hq
      · exact hresume
    · exact (hslots q hqp).suspended (h.suspended q) hq
  case running =>
    intro q hq
    have hqp : q ≠ p := by
      rintro rfl
      exact hnot hq
    have hbefore := (hslots q hqp).running_iff.mp hq
    rw [(hslots q hqp).resume_eq hbefore]
    exact h.running q hbefore

/-- A step of a scheduler that is not executing a process and dispatches none. -/
theorem scheduler (h : DispatchInv s) (c : C) {cpu : Cpu} (hbefore : ∀ q, (s.cpu c).ctrl ≠ .run q)
    (hcpu : s'.cpu = Function.update s.cpu c cpu) (hnone : cpu.proc = none)
    (hfree : s.lock = none ∨ s.lock = some c)
    (hafter : cpu.ctrl = .idle ∧ s'.lock = none ∨
      (∃ first, cpu.ctrl = .scan first) ∧ s'.lock = some c)
    (hproc : s'.proc = s.proc) (hthread : s'.thread = s.thread) : DispatchInv s' := by
  have hself : s'.cpu c = cpu := by rw [hcpu, Function.update_self]
  have hother : ∀ c', c' ≠ c → s'.cpu c' = s.cpu c' := by
    intro c' hc
    rw [hcpu, Function.update_of_ne hc]
  have hnotrun : ∀ q, cpu.ctrl ≠ .run q := by
    intro q hq
    rcases hafter with ⟨hctrl, -⟩ | ⟨⟨first, hctrl⟩, -⟩ <;> simp [hq] at hctrl
  have hrun : ∀ c' q, (s'.cpu c').ctrl = .run q ↔ (s.cpu c').ctrl = .run q := by
    intro c' q
    by_cases hc : c' = c
    · subst hc
      rw [hself]
      exact iff_of_false (hnotrun q) (hbefore q)
    · rw [hother c' hc]
  -- only this scheduler may have the lock, before the step and after it
  have hne : ∀ c', c' ≠ c → s.lock ≠ some c' ∧ s'.lock ≠ some c' := by
    intro c' hc
    constructor
    · rcases hfree with hfree | hfree <;> simp [hfree, Ne.symm hc]
    · rcases hafter with ⟨-, hlock⟩ | ⟨-, hlock⟩ <;> simp [hlock, Ne.symm hc]
  constructor
  case idle =>
    intro c' hidle
    by_cases hc : c' = c
    · subst hc
      rw [hself] at hidle ⊢
      rcases hafter with ⟨-, hlock⟩ | ⟨⟨first, hctrl⟩, -⟩
      · exact ⟨hnone, by simp [hlock]⟩
      · simp [hctrl] at hidle
    · rw [hother c' hc] at hidle ⊢
      exact ⟨(h.idle c' hidle).1, (hne c' hc).2⟩
  case scan =>
    intro c' first hscan
    by_cases hc : c' = c
    · subst hc
      rw [hself] at hscan ⊢
      rcases hafter with ⟨hctrl, -⟩ | ⟨-, hlock⟩
      · simp [hctrl] at hscan
      · exact ⟨hnone, hlock⟩
    · rw [hother c' hc] at hscan
      exact absurd (h.scan c' first hscan).2 (hne c' hc).1
  case run =>
    intro c' q hq
    have hbefore' := (hrun c' q).mp hq
    have hc : c' ≠ c := by
      rintro rfl
      exact hbefore q hbefore'
    rw [hother c' hc, hproc]
    exact h.run c' q hbefore'
  case held =>
    intro c' q hq
    have hbefore' := (hrun c' q).mp hq
    have hc : c' ≠ c := by
      rintro rfl
      exact hbefore q hbefore'
    rw [hthread, ← h.held c' q hbefore']
    exact iff_of_false (hne c' hc).2 (hne c' hc).1
  case back =>
    intro c' q hq
    by_cases hc : c' = c
    · subst hc
      rw [hself] at hq
      rcases hafter with ⟨hctrl, -⟩ | ⟨⟨first, hctrl⟩, -⟩ <;> simp [hctrl] at hq
    · rw [hother c' hc] at hq
      exact absurd (h.back c' q hq).2.1 (hne c' hc).1
  case unique =>
    intro c₁ c₂ q h₁ h₂
    exact h.unique c₁ c₂ q ((hrun c₁ q).mp h₁) ((hrun c₂ q).mp h₂)
  case owner =>
    intro q hq
    rw [hproc] at hq
    obtain ⟨c', hc'⟩ := h.owner q hq
    exact ⟨c', (hrun c' q).mpr hc'⟩
  case suspended =>
    rw [hproc, hthread]
    exact h.suspended
  case running =>
    rw [hproc, hthread]
    exact h.running

/-- A step by which a scheduler switches to a runnable process. -/
theorem dispatched (h : DispatchInv s) {first : ℕ} {cpu : Cpu}
    (hctrl : (s.cpu c).ctrl = .scan first) (hrunnable : (s.proc p).state = .runnable)
    (hcpu : s'.cpu = Function.update s.cpu c cpu) (hrun : cpu.ctrl = .run p)
    (hsome : cpu.proc = some p) (hlock : s'.lock = s.lock)
    (hproc : s'.proc = s.proc.modify p fun q => { q with state := .running })
    (hthread : s'.thread = s.thread) : DispatchInv s' := by
  have hheld := (h.scan c first hctrl).2
  have hself : s'.cpu c = cpu := by rw [hcpu, Function.update_self]
  have hother : ∀ c', c' ≠ c → s'.cpu c' = s.cpu c' := by
    intro c' hc
    rw [hcpu, Function.update_of_ne hc]
  have hp : (s'.proc p).state = .running := by
    rw [hproc, Ptable.modify_self]
  have hslot : ∀ q, q ≠ p → s'.proc q = s.proc q := by
    intro q hq
    rw [hproc, Ptable.modify_of_ne _ _ _ hq]
  have hne : ∀ c', c' ≠ c → s.lock ≠ some c' := by
    intro c' hc
    simp [hheld, Ne.symm hc]
  have hresume := h.suspended p (Or.inl hrunnable)
  -- a runnable process is on no CPU, so the dispatch does not give it a second one
  have hrun' : ∀ c' q, (s'.cpu c').ctrl = .run q →
      c' = c ∧ q = p ∨ c' ≠ c ∧ q ≠ p ∧ (s.cpu c').ctrl = .run q := by
    intro c' q hq
    by_cases hc : c' = c
    · subst hc
      rw [hself, hrun] at hq
      exact Or.inl ⟨rfl, (Ctrl.run.inj hq).symm⟩
    · rw [hother c' hc] at hq
      refine Or.inr ⟨hc, ?_, hq⟩
      rintro rfl
      simpa [hrunnable] using (h.run c' q hq).2
  constructor
  case idle =>
    intro c' hidle
    have hc : c' ≠ c := by
      rintro rfl
      simp [hself, hrun] at hidle
    rw [hother c' hc] at hidle ⊢
    rw [hlock]
    exact h.idle c' hidle
  case scan =>
    intro c' n hscan
    have hc : c' ≠ c := by
      rintro rfl
      simp [hself, hrun] at hscan
    rw [hother c' hc] at hscan ⊢
    rw [hlock]
    exact h.scan c' n hscan
  case run =>
    intro c' q hq
    rcases hrun' c' q hq with ⟨rfl, rfl⟩ | ⟨hc, hqp, hq⟩
    · rw [hself]
      exact ⟨hsome, hp⟩
    · rw [hother c' hc, hslot q hqp]
      exact h.run c' q hq
  case held =>
    intro c' q hq
    rw [hlock, hthread]
    rcases hrun' c' q hq with ⟨rfl, rfl⟩ | ⟨hc, hqp, hq⟩
    · exact iff_of_true hheld hresume.1
    · exact h.held c' q hq
  case back =>
    intro c' q hq
    have hc : c' ≠ c := by
      rintro rfl
      simp [hself, hrun] at hq
    rw [hother c' hc] at hq
    exact absurd (h.back c' q hq).2.1 (hne c' hc)
  case unique =>
    intro c₁ c₂ q h₁ h₂
    rcases hrun' c₁ q h₁ with ⟨hc₁, hq₁⟩ | ⟨-, hq₁, h₁⟩ <;>
      rcases hrun' c₂ q h₂ with ⟨hc₂, hq₂⟩ | ⟨-, hq₂, h₂⟩
    · rw [hc₁, hc₂]
    · exact absurd hq₁ hq₂
    · exact absurd hq₂ hq₁
    · exact h.unique c₁ c₂ q h₁ h₂
  case owner =>
    intro q hq
    by_cases hqp : q = p
    · subst hqp
      exact ⟨c, by rw [hself, hrun]⟩
    · rw [hslot q hqp] at hq
      obtain ⟨c', hc'⟩ := h.owner q hq
      have hc : c' ≠ c := by
        rintro rfl
        simp [hctrl] at hc'
      exact ⟨c', by rw [hother c' hc, hc']⟩
  case suspended =>
    intro q hq
    have hqp : q ≠ p := by
      rintro rfl
      simp [hp, ProcState.suspended] at hq
    rw [hslot q hqp] at hq
    rw [hthread]
    exact h.suspended q hq
  case running =>
    intro q hq
    rw [hthread]
    by_cases hqp : q = p
    · subst hqp
      exact hresume.2
    · rw [hslot q hqp] at hq
      exact h.running q hq

end DispatchInv

end Xv6
