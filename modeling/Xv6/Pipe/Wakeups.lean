import Xv6.Pipe.Fifo

/-!
# Sleepers on a pipe

Who changes a pipe so that a sleeper could go on wakes it up before it gives up
`p->lock`: until then it owes the wakeup (`Piping.Owes`).  `WakeInv.served` says that a
process that sleeps has to, or that the process with the lock owes it a wakeup.

One exit of `pipewrite` does not pay.  A writer that has stored bytes and then finds the
buffer full returns at once if it has been killed, or if the read end is closed, and a
reader that slept on the empty pipe goes on sleeping (`reader_left_asleep`).  Where no
reader sleeps when that exit is taken, no process is left asleep (`no_lost_wakeup`).
-/

namespace Xv6

open Transition

variable {P β : Type}

/-- What a sleeper waits for is there. -/
def Pipe.ready (p : Pipe β) : PipeChan → Bool
  | .nread => !p.empty || !p.writeopen
  | .nwrite => !p.full || !p.readopen

/-- Where a call may have changed the pipe and has not yet woken up the sleepers. -/
def PipeCall.owing : PipeCall β → PipeStage → Bool
  | .write _ _, .test | .write _ _, .wakeFull | .write _ _, .wake => true
  | .read _ _, .copy | .read _ _, .wake => true
  | .close _, .wake => true
  | _, _ => false

namespace Piping

/-- The process is in `sleep(chan)` and has not been woken up. -/
def InSleep (s : Piping P β) (chan : PipeChan) (q : P) : Prop :=
  ∃ c stage, s.pc q = some (c, stage) ∧ c.chan = chan ∧ stage.waits = true

/-- The process is `SLEEPING` on the channel. -/
def SleepsOn (s : Piping P β) (chan : PipeChan) (q : P) : Prop :=
  ∃ c, s.pc q = some (c, .asleep) ∧ c.chan = chan

/-- The process has changed the pipe, or may have, and will wake up the channel. -/
def Owes (s : Piping P β) (chan : PipeChan) (p : P) : Prop :=
  ∃ c stage, s.pc p = some (c, stage) ∧ c.wakes = chan ∧ c.owing stage = true

/-- `pipewrite` has bytes left, finds the pipe full and returns -1. -/
def StopsWriting (s : Piping P β) (p : P) : Prop :=
  ∃ src i, s.pc p = some (.write src i, .test) ∧ i < src.length ∧ s.pipe.full = true ∧
    (s.pipe.readopen = false ∨ s.killed p = true)

/-- No process is in `sleep(&p->nread)` when a writer stops. -/
def StopsAlone (s : Piping P β) (a : PipeAction P β) (_ : Piping P β) : Prop :=
  ∀ p, a = .proceed p → s.StopsWriting p → ∀ q, ¬ s.InSleep .nread q

end Piping

structure WakeInv (s : Piping P β) : Prop where
  lock : s.LockInv
  dozing : ∀ q c, s.pc q = some (c, .dozing) → s.ptable = some q
  checked : ∀ q c stage, s.pc q = some (c, stage) → stage = .wakeFull ∨ stage = .sleep →
    s.pipe.ready c.chan = false
  served : ∀ chan q, s.InSleep chan q → s.pipe.ready chan = false ∨ ∃ p, s.Owes chan p

section Wakeups

variable {s t : Piping P β} {p q : P} {a : PipeAction P β} {chan : PipeChan} {c : PipeCall β}
variable {stage : PipeStage}

theorem Piping.Owes.locks (h : s.Owes chan p) : s.Locks p := by
  obtain ⟨c, stage, hpc, -, howing⟩ := h
  refine ⟨c, stage, hpc, ?_⟩
  cases c <;> cases stage <;> first | rfl | simp [PipeCall.owing] at howing

/-- Nobody but the process with the lock owes a wakeup. -/
theorem WakeInv.not_ready (hinv : WakeInv s) (hq : s.InSleep chan q)
    (hnone : ∀ p, s.lock = some p → ¬ s.Owes chan p) : s.pipe.ready chan = false := by
  rcases hinv.served chan q hq with hready | ⟨p, howes⟩
  · exact hready
  · exact absurd howes (hnone p ((hinv.lock p).mp howes.locks))

theorem Piping.owes_of_pc (hpc : s.pc p = some (c, stage)) :
    s.Owes chan p ↔ c.wakes = chan ∧ c.owing stage = true := by
  simp [Owes, hpc]

theorem Piping.inSleep_of_pc (hpc : s.pc p = some (c, stage)) :
    s.InSleep chan p ↔ c.chan = chan ∧ stage.waits = true := by
  simp [InSleep, hpc]

variable [DecidableEq P]

/-! ## What a step does to the others -/

theorem PipeStep.inSleep_other (h : PipeStep s a t) (hq : q ≠ a.actor) (ht : t.InSleep chan q) :
    s.InSleep chan q := by
  rcases h.other hq with heq | ⟨c, -, hwoken⟩
  · obtain ⟨c, stage, hpc, hc⟩ := ht
    exact ⟨c, stage, heq ▸ hpc, hc⟩
  · rw [Piping.inSleep_of_pc hwoken] at ht
    simp [PipeStage.waits] at ht

theorem PipeStep.owes_other (h : PipeStep s a t) (hp : p ≠ a.actor) (hs : s.Owes chan p) :
    t.Owes chan p := by
  rcases h.other hp with heq | ⟨c, hasleep, -⟩
  · obtain ⟨c, stage, hpc, hc⟩ := hs
    exact ⟨c, stage, heq.trans hpc, hc⟩
  · have hlocks := (Piping.locks_of_pc hasleep).mp hs.locks
    simp [PipeStage.locks] at hlocks

/-- After a wakeup nobody is in `sleep` on its channel, because nobody was about to
fall asleep. -/
theorem WakeInv.not_inSleep_wakeup (hinv : WakeInv s) (hfree : s.ptable = none)
    (hstage : stage.waits = false) (c : PipeCall β) (q : P) :
    ¬ ((s.wakeup chan).goto p (some (c, stage))).InSleep chan q := by
  by_cases hq : q = p
  · subst hq
    rw [Piping.inSleep_of_pc (Piping.goto_pc_self _ _ _)]
    simp [hstage]
  · rintro ⟨d, stage', hpc, hchan, hwaits⟩
    rw [Piping.goto_pc_of_ne _ _ hq] at hpc
    cases stage' with
    | dozing =>
        have hs : s.pc q = some (d, .dozing) := by
          rcases s.wakeup_pc chan q with heq | ⟨e, -, hwoken⟩
          · rw [← heq, hpc]
          · simp [hwoken] at hpc
        simp [hinv.dozing q d hs] at hfree
    | asleep =>
        rcases s.wakeup_pc chan q with heq | ⟨e, -, hwoken⟩
        · rw [heq] at hpc
          simp [Piping.wakeup, hpc, hchan] at heq
        · simp [hwoken] at hpc
    | test | copy | wakeFull | wake | sleep | woken | giveUp | finish =>
        simp [PipeStage.waits] at hwaits

/-! ## What the process that takes the step does -/

theorem Pipe.ready_enter (p : Pipe β) (c : PipeCall β) (h : p.ready chan = false)
    (ht : (p.enter c).ready chan = true) : ∃ writable, c = .close writable ∧ c.wakes = chan := by
  cases c with
  | write src i => simp [enter, h] at ht
  | read n dst => simp [enter, h] at ht
  | close writable =>
      refine ⟨writable, rfl, ?_⟩
      cases writable <;> cases chan <;> simp_all [enter, shut, ready, PipeCall.wakes, empty, full]

/-- Whoever makes a channel ready owes a wakeup. -/
theorem PipeStep.owes_of_ready (h : PipeStep s a t) (hs : s.pipe.ready chan = false)
    (ht : t.pipe.ready chan = true) : t.Owes chan a.actor := by
  cases h with
  | @call p c hpc hlock hopen =>
      obtain ⟨writable, rfl, hwakes⟩ := s.pipe.ready_enter c hs ht
      exact ⟨_, _, Piping.goto_pc_self _ _ _, hwakes, rfl⟩
  | @put p src i x hpc hx hroom =>
      cases chan with
      | nread => exact ⟨_, _, Piping.goto_pc_self _ _ _, rfl, rfl⟩
      | nwrite => simp [Pipe.ready, hroom] at hs
  | @pop p n dst hpc hlt hfull =>
      cases chan with
      | nwrite => exact ⟨_, _, Piping.goto_pc_self _ _ _, rfl, rfl⟩
      | nread => simp [Pipe.ready, hfull] at hs
  | move => exact absurd (hs.symm.trans ht) (by simp)
  | wakeFull => exact absurd (hs.symm.trans ht) (by simp)
  | wake => exact absurd (hs.symm.trans ht) (by simp)
  | sleep => exact absurd (hs.symm.trans ht) (by simp)
  | ret => exact absurd (hs.symm.trans ht) (by simp)
  | doze => exact absurd (hs.symm.trans ht) (by simp)
  | resume => exact absurd (hs.symm.trans ht) (by simp)
  | killSleeper => exact absurd (hs.symm.trans ht) (by simp)
  | kill => exact absurd (hs.symm.trans ht) (by simp)

/-- Whoever owes a wakeup still owes it after its step, or nobody needs it. -/
theorem WakeInv.paid (hinv : WakeInv s) (h : PipeStep s a t) (halone : s.StopsAlone a t)
    (howes : s.Owes chan a.actor) : t.Owes chan a.actor ∨ ∀ q, ¬ t.InSleep chan q := by
  cases h with
  | @call p c hpc => simp [Piping.Owes, PipeAction.actor, hpc] at howes
  | @move p c stage stage' hpc hmove =>
      have hafter := Piping.goto_pc_self s p (some (c, stage'))
      have hs := (Piping.owes_of_pc hpc).mp howes
      cases hmove with
      | written => exact Or.inl ((Piping.owes_of_pc hafter).mpr ⟨hs.1, rfl⟩)
      | blocked => exact Or.inl ((Piping.owes_of_pc hafter).mpr ⟨hs.1, rfl⟩)
      | copied => exact Or.inl ((Piping.owes_of_pc hafter).mpr ⟨hs.1, rfl⟩)
      | empty => simp [PipeCall.owing] at hs
      | killed => simp [PipeCall.owing] at hs
      | ready => simp [PipeCall.owing] at hs
      | @stop src i hleft hfull hstop =>
          obtain ⟨rfl, -⟩ := hs
          refine Or.inr fun q hq => ?_
          by_cases hqp : q = p
          · subst hqp
            rw [Piping.inSleep_of_pc hafter] at hq
            simp [PipeStage.waits] at hq
          · refine halone p rfl ⟨src, i, hpc, hleft, hfull, hstop⟩ q ?_
            have hmove : PipeStep s (.proceed p) _ := .move hpc (.stop hleft hfull hstop)
            exact hmove.inSleep_other hqp hq
  | put hpc =>
      have hs := (Piping.owes_of_pc hpc).mp howes
      exact Or.inl ⟨_, _, Piping.goto_pc_self _ _ _, hs.1, rfl⟩
  | pop hpc =>
      have hs := (Piping.owes_of_pc hpc).mp howes
      exact Or.inl ⟨_, _, Piping.goto_pc_self _ _ _, hs.1, rfl⟩
  | wakeFull hpc hfree =>
      obtain ⟨rfl, -⟩ := (Piping.owes_of_pc hpc).mp howes
      exact Or.inr (hinv.not_inSleep_wakeup hfree rfl _)
  | wake hpc hfree =>
      obtain ⟨rfl, -⟩ := (Piping.owes_of_pc hpc).mp howes
      exact Or.inr (hinv.not_inSleep_wakeup hfree rfl _)
  | @sleep p c hpc =>
      have hs := (Piping.owes_of_pc hpc).mp howes
      cases c <;> simp [PipeCall.owing] at hs
  | @ret p c stage hpc hstage =>
      have hs := (Piping.owes_of_pc hpc).mp howes
      rcases hstage with rfl | rfl <;> cases c <;> simp [PipeCall.owing] at hs
  | @doze p c hpc =>
      have hs := (Piping.owes_of_pc hpc).mp howes
      cases c <;> simp [PipeCall.owing] at hs
  | @resume p c hpc =>
      have hs := (Piping.owes_of_pc hpc).mp howes
      cases c <;> simp [PipeCall.owing] at hs
  | @killSleeper p c hpc =>
      have hs := (Piping.owes_of_pc hpc).mp howes
      cases c <;> simp [PipeCall.owing] at hs
  | kill => exact Or.inl howes

/-! ## The invariant -/

theorem WakeInv.dozing_step (hinv : WakeInv s) (h : PipeStep s a t)
    (hpc : t.pc q = some (c, .dozing)) : t.ptable = some q := by
  have hbefore : q ≠ a.actor → s.ptable = some q := by
    intro hq
    rcases h.other hq with heq | ⟨d, -, hwoken⟩
    · exact hinv.dozing q c (heq ▸ hpc)
    · simp [hwoken] at hpc
  -- a process that starts or ends to doze is the only one
  cases h with
  | @sleep p d hp hfree =>
      by_cases hq : q = p
      · exact hq ▸ rfl
      · simp [hbefore hq] at hfree
  | @doze p d hp =>
      by_cases hq : q = p
      · subst hq
        simp at hpc
      · have hptable := hinv.dozing p d hp
        rw [hbefore hq] at hptable
        exact absurd (Option.some.inj hptable) hq
  | @call p d hp =>
      refine hbefore fun hq => ?_
      obtain rfl : q = p := hq
      cases d <;> simp [PipeCall.start] at hpc
  | @move p d stage stage' hp hmove =>
      refine hbefore fun hq => ?_
      obtain rfl : q = p := hq
      cases hmove <;> simp at hpc
  | put => exact hbefore fun hq => by subst hq; simp at hpc
  | pop => exact hbefore fun hq => by subst hq; simp at hpc
  | wakeFull => exact hbefore fun hq => by subst hq; simp at hpc
  | wake => exact hbefore fun hq => by subst hq; simp at hpc
  | ret => exact hbefore fun hq => by subst hq; simp [Piping.ret] at hpc
  | resume => exact hbefore fun hq => by subst hq; simp at hpc
  | killSleeper => exact hbefore fun hq => by subst hq; simp at hpc
  | kill => exact hinv.dozing q c hpc

/-- A process that goes to sleep has checked that it has to. -/
theorem WakeInv.checked_actor (hinv : WakeInv s) (h : PipeStep s a t)
    (hpc : t.pc a.actor = some (c, stage)) (hstage : stage = .wakeFull ∨ stage = .sleep) :
    t.pipe.ready c.chan = false := by
  have hnow : ∀ d stage', t.pc a.actor = some (d, stage') →
      stage' = .wakeFull ∨ stage' = .sleep := by
    intro d stage' heq
    obtain ⟨-, rfl⟩ : c = d ∧ stage = stage' := by simpa [hpc] using heq
    exact hstage
  cases h with
  | @call p d =>
      have hstart := hnow _ _ (Piping.goto_pc_self _ _ _)
      cases d <;> simp at hstart
  | @move p d stage₁ stage₂ hp hmove =>
      obtain ⟨rfl, rfl⟩ : d = c ∧ stage₂ = stage := by simpa [PipeAction.actor] using hpc
      cases hmove with
      | blocked hfull hopen =>
          show s.pipe.ready .nwrite = false
          simp [Pipe.ready, hfull, hopen]
      | empty hempty hopen =>
          show s.pipe.ready .nread = false
          simp [Pipe.ready, hempty, hopen]
      | written => simp at hstage
      | stop => simp at hstage
      | killed => simp at hstage
      | ready => simp at hstage
      | copied => simp at hstage
  | @wakeFull p d hp =>
      obtain ⟨rfl, -⟩ : d = c ∧ _ := by simpa [PipeAction.actor] using hpc
      exact hinv.checked p d .wakeFull hp (Or.inl rfl)
  | kill => exact hinv.checked _ c stage hpc hstage
  | put => simpa using hnow _ _ (Piping.goto_pc_self _ _ _)
  | pop => simpa using hnow _ _ (Piping.goto_pc_self _ _ _)
  | wake => simpa using hnow _ _ (Piping.goto_pc_self _ _ _)
  | sleep => simpa using hnow _ _ (Piping.goto_pc_self _ _ _)
  | ret => simp [PipeAction.actor, Piping.ret] at hpc
  | doze => simpa using hnow _ _ (Piping.goto_pc_self _ _ _)
  | resume => simpa using hnow _ _ (Piping.goto_pc_self _ _ _)
  | killSleeper => simpa using hnow _ _ (Piping.goto_pc_self _ _ _)

theorem WakeInv.checked_step (hinv : WakeInv s) (h : PipeStep s a t)
    (hpc : t.pc q = some (c, stage)) (hstage : stage = .wakeFull ∨ stage = .sleep) :
    t.pipe.ready c.chan = false := by
  by_cases hq : q = a.actor
  · exact hinv.checked_actor h (hq ▸ hpc) hstage
  · have hlocks : stage.locks = true := by rcases hstage with rfl | rfl <;> rfl
    have hs : s.pc q = some (c, stage) := by
      rcases h.other hq with heq | ⟨d, -, hwoken⟩
      · rw [← heq, hpc]
      · obtain ⟨-, rfl⟩ : _ ∧ PipeStage.woken = stage := by simpa [hwoken] using hpc
        simp [PipeStage.locks] at hlocks
    rw [hinv.lock.pipe_eq h hq ((Piping.locks_of_pc hs).mpr hlocks)]
    exact hinv.checked q c stage hs hstage

/-- A process that is in `sleep` after its own step has just checked, or it was there
before. -/
theorem WakeInv.inSleep_actor (hinv : WakeInv s) (h : PipeStep s a t)
    (ht : t.InSleep chan a.actor) : t.pipe.ready chan = false ∨ s.InSleep chan a.actor := by
  cases h with
  | @sleep p c hpc =>
      have hchan := ((Piping.inSleep_of_pc (Piping.goto_pc_self _ _ _)).mp ht).1
      exact Or.inl (hchan ▸ hinv.checked p c .sleep hpc (Or.inr rfl))
  | @doze p c hpc =>
      have hchan := ((Piping.inSleep_of_pc (Piping.goto_pc_self _ _ _)).mp ht).1
      exact Or.inr ((Piping.inSleep_of_pc hpc).mpr ⟨hchan, rfl⟩)
  | kill => exact Or.inr ht
  | @call p c =>
      have hwaits := ((Piping.inSleep_of_pc (Piping.goto_pc_self _ _ _)).mp ht).2
      cases c <;> simp [PipeStage.waits] at hwaits
  | @move p c stage stage' hpc hmove =>
      have hwaits := ((Piping.inSleep_of_pc (Piping.goto_pc_self _ _ _)).mp ht).2
      cases hmove <;> simp [PipeStage.waits] at hwaits
  | put => simp [PipeAction.actor, Piping.InSleep, PipeStage.waits] at ht
  | pop => simp [PipeAction.actor, Piping.InSleep, PipeStage.waits] at ht
  | wakeFull => simp [PipeAction.actor, Piping.InSleep, PipeStage.waits] at ht
  | wake => simp [PipeAction.actor, Piping.InSleep, PipeStage.waits] at ht
  | ret => simp [PipeAction.actor, Piping.InSleep, Piping.ret] at ht
  | resume => simp [PipeAction.actor, Piping.InSleep, PipeStage.waits] at ht
  | killSleeper => simp [PipeAction.actor, Piping.InSleep, PipeStage.waits] at ht

theorem WakeInv.step (hinv : WakeInv s) (h : PipeStep s a t) (halone : s.StopsAlone a t) :
    WakeInv t := by
  refine ⟨hinv.lock.step h, fun q c hpc => hinv.dozing_step h hpc,
    fun q c stage hpc hstage => hinv.checked_step h hpc hstage, fun chan q ht => ?_⟩
  have hs : t.pipe.ready chan = false ∨ s.InSleep chan q := by
    by_cases hq : q = a.actor
    · exact hq ▸ hinv.inSleep_actor h (hq ▸ ht)
    · exact Or.inr (h.inSleep_other hq ht)
  rcases hs with hready | hs
  · exact Or.inl hready
  · rcases hinv.served chan q hs with hready | ⟨p, howes⟩
    · by_cases hnow : t.pipe.ready chan = true
      · exact Or.inr ⟨a.actor, h.owes_of_ready hready hnow⟩
      · exact Or.inl (by simpa using hnow)
    · by_cases hp : p = a.actor
      · rcases hinv.paid h halone (hp ▸ howes) with hstill | hnone
        · exact Or.inr ⟨a.actor, hstill⟩
        · exact absurd ht (hnone q)
      · exact Or.inr ⟨p, h.owes_other hp howes⟩

omit [DecidableEq P] in
theorem WakeInv.alloc (data : Fin PIPESIZE → β) (killed : P → Bool) :
    WakeInv (Piping.alloc P data killed) where
  lock := (PipeInv.alloc data killed).lock
  dozing := by simp [Piping.alloc]
  checked := by simp [Piping.alloc]
  served := by simp [Piping.alloc, Piping.InSleep]

omit [DecidableEq P] in
/-- A process that is asleep while nobody holds the lock has to sleep. -/
theorem WakeInv.not_ready_of_sleepsOn (hinv : WakeInv s) (hlock : s.lock = none)
    (hq : s.SleepsOn chan q) : s.pipe.ready chan = false := by
  obtain ⟨c, hpc, hchan⟩ := hq
  refine hinv.not_ready ⟨c, .asleep, hpc, hchan, rfl⟩ fun p hp => ?_
  simp [hlock] at hp

/-- As long as no writer stops while a reader sleeps, nobody is left asleep on a pipe
that is ready for it. -/
theorem no_lost_wakeup {data : Fin PIPESIZE → β} {killed : P → Bool}
    (run : Run Piping.step Piping.StopsAlone (Piping.alloc P data killed) s)
    (hlock : s.lock = none) (q : P) :
    (s.SleepsOn .nread q → s.pipe.nread = s.pipe.nwrite ∧ s.pipe.writeopen = true) ∧
      (s.SleepsOn .nwrite q →
        s.pipe.nwrite = s.pipe.nread + UInt32.ofNat PIPESIZE ∧ s.pipe.readopen = true) := by
  have hinv : WakeInv s := run.invariant (WakeInv.alloc data killed)
    fun _ _ _ hstep halone hinv => hinv.step (Piping.step_cases hstep) halone
  constructor
  · intro hq
    simpa [Pipe.ready, Pipe.empty] using hinv.not_ready_of_sleepsOn hlock hq
  · intro hq
    simpa [Pipe.ready, Pipe.full] using hinv.not_ready_of_sleepsOn hlock hq

/-- A reader sleeps on the empty pipe, whose write end is open. -/
theorem no_lost_wakeup_sample : ∃ s : Piping Bool Unit, s.SleepsOn .nread false ∧
    (s.SleepsOn .nread false → s.pipe.nread = s.pipe.nwrite ∧ s.pipe.writeopen = true) := by
  have htest : (exec (checked Piping.step fun s _ _ => s.pipe.readopen = true ∧
      ∀ p, s.killed p = false) (Piping.alloc Bool (fun _ => ()) fun _ => false)
      ([.call false (.read 1 [])] ++ List.replicate 3 (.proceed false))).test
        (fun s => decide (s.lock = none ∧ s.pc false = some (.read 1 [], .asleep))) = true := by
    decide +kernel
  obtain ⟨s, hrun, hcheck⟩ := run_of_test htest
  obtain ⟨hlock, hpc⟩ := of_decide_eq_true hcheck
  have halone :
      Run Piping.step Piping.StopsAlone (Piping.alloc Bool (fun _ => ()) fun _ => false) s := by
    refine hrun.mono fun r a t _ hguard p _ hstops _ _ => ?_
    obtain ⟨-, -, -, -, -, hclosed | hkilled⟩ := hstops
    · simp [hguard.1] at hclosed
    · simp [hguard.2] at hkilled
  exact ⟨s, ⟨_, hpc, rfl⟩, (no_lost_wakeup halone hlock false).1⟩

/-- A writer stores bytes as long as there is room. -/
theorem reaches_put {src : List β} {i : ℕ} (k : ℕ) (hpc : s.pc p = some (.write src i, .test))
    (hleft : i + k ≤ src.length)
    (hroom : RingBuffer.filled s.pipe.nread s.pipe.nwrite + k ≤ PIPESIZE) :
    ∃ t, Reaches Piping.step s t ∧ t.pc p = some (.write src (i + k), .test) ∧
      RingBuffer.filled t.pipe.nread t.pipe.nwrite =
        RingBuffer.filled s.pipe.nread s.pipe.nwrite + k ∧
      t.killed = s.killed ∧ ∀ q ≠ p, t.pc q = s.pc q := by
  induction k generalizing s i with
  | zero => exact ⟨s, .refl, hpc, rfl, rfl, fun _ _ => rfl⟩
  | succ k ih =>
      have hnotfull : s.pipe.full = false := by
        refine Bool.not_eq_true _ ▸ fun hfull => ?_
        rw [Pipe.full_iff] at hfull
        omega
      obtain ⟨x, hx⟩ : ∃ x, src[i]? = some x := ⟨src[i], List.getElem?_eq_getElem (by omega)⟩
      obtain ⟨next, hnext⟩ : ∃ next, next =
          { s with pipe := s.pipe.put x }.goto p (some (.write src (i + 1), .test)) := ⟨_, rfl⟩
      have hstep : Piping.step s (.proceed p) = .next next := by
        simp [Piping.step, Piping.proceed, hpc, Piping.locked, hx, hnotfull, hnext]
      have hfilled : RingBuffer.filled next.pipe.nread next.pipe.nwrite =
          RingBuffer.filled s.pipe.nread s.pipe.nwrite + 1 := by
        rw [hnext]
        exact Pipe.filled_put (by omega) hnotfull
      have hthere : next.pc p = some (.write src (i + 1), .test) := by simp [hnext]
      obtain ⟨t, hrun, ht, hcount, hkilled, hother⟩ := ih hthere (by omega) (by omega)
      refine ⟨t, .head ⟨_, hstep, trivial⟩ hrun, ?_, by omega, by rw [hkilled, hnext]; rfl,
        fun q hq => ?_⟩
      · rw [ht, Nat.add_assoc, Nat.add_comm 1]
      · rw [hother q hq, hnext, Piping.goto_pc_of_ne _ _ hq]

/-- A writer that stops gives up the lock and changes nothing else. -/
theorem reaches_stop (hstop : s.StopsWriting p) : ∃ t, Reaches Piping.step s t ∧ t.lock = none ∧
    t.pipe = s.pipe ∧ ∀ q ≠ p, t.pc q = s.pc q := by
  obtain ⟨src, i, hpc, hleft, hfull, hcause⟩ := hstop
  obtain ⟨next, hnext⟩ : ∃ next, next = s.goto p (some (.write src i, .giveUp)) := ⟨_, rfl⟩
  have hstep : Piping.step s (.proceed p) = .next next := by
    have hx : src[i]? = some src[i] := List.getElem?_eq_getElem hleft
    simp [Piping.step, Piping.proceed, hpc, Piping.locked, hx, hfull, hcause, hnext]
  have hret : Piping.step next (.proceed p) = .next (next.ret p) := by
    simp [Piping.step, Piping.proceed, hnext, Piping.locked]
  refine ⟨next.ret p, .snoc (.snoc .refl hstep) hret, rfl, by rw [hnext]; rfl, fun q hq => ?_⟩
  rw [Piping.ret, Piping.goto_pc_of_ne _ _ hq]
  show next.pc q = s.pc q
  rw [hnext, Piping.goto_pc_of_ne _ _ hq]

/-- A reader goes to sleep on the empty pipe, and then a writer that is to be killed
begins, with one byte more than fits. -/
def strandedReader : List (PipeAction Bool Unit) :=
  [.call false (.read 1 [])] ++ List.replicate 3 (.proceed false) ++
    [.kill true, .call true (.write (List.replicate (PIPESIZE + 1) ()) 0)]

/-- The writer fills the pipe and returns without a wakeup. -/
theorem reader_left_asleep : ∃ s : Piping Bool Unit,
    Reaches Piping.step (Piping.alloc Bool (fun _ => ()) fun _ => false) s ∧
      s.lock = none ∧ s.SleepsOn .nread false ∧ s.pipe.nread ≠ s.pipe.nwrite := by
  have htest : (exec Piping.step (Piping.alloc Bool (fun _ => ()) fun _ => false)
      strandedReader).test (fun s => decide (s.pc false = some (.read 1 [], .asleep) ∧
        s.pc true = some (.write (List.replicate (PIPESIZE + 1) ()) 0, .test) ∧
        s.killed true = true ∧ s.pipe.nread = s.pipe.nwrite)) = true := by decide +kernel
  obtain ⟨s, hrun, hcheck⟩ := reaches_of_test htest
  obtain ⟨hreader, hwriter, hkilled, hempty⟩ := of_decide_eq_true hcheck
  have hzero := RingBuffer.filled_eq_zero_iff.mpr hempty
  obtain ⟨t, hput, ht, hcount, htkilled, hother⟩ := reaches_put PIPESIZE hwriter
    (by simp) (by omega)
  have hfull : t.pipe.full = true := Pipe.full_iff.mpr (by omega)
  obtain ⟨u, hstop, hlock, hpipe, hrest⟩ := reaches_stop ⟨_, _, ht, by simp, hfull,
    Or.inr (by rw [htkilled, hkilled])⟩
  refine ⟨u, (hrun.trans hput).trans hstop, hlock, ⟨.read 1 [], ?_, rfl⟩, fun heq => ?_⟩
  · rw [hrest false (by decide), hother false (by decide), hreader]
  · rw [hpipe, ← RingBuffer.filled_eq_zero_iff, hcount] at heq
    simp [PIPESIZE] at heq

end Wakeups

end Xv6
